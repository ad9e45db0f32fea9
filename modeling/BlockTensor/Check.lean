/-!
# Checks

A check is an `Except` computation that returns nothing. Constructors run their
checks in a fixed order and stop at the first that fails, so the order of the
lines is the order of the errors.

`bind_ok`, `pure_ok` and `ensure_ok` read a success as the rules it decides.
-/

namespace BlockTensor

def ensure {ε : Type} (rule : Prop) [Decidable rule] (error : ε) : Except ε Unit :=
  if rule then .ok () else .error error

theorem bind_ok {ε α β : Type} {x : Except ε α} {f : α → Except ε β} {b : β} :
    x >>= f = .ok b ↔ ∃ a, x = .ok a ∧ f a = .ok b := by
  cases x <;> simp [bind, Except.bind]

theorem pure_ok {ε α : Type} {a b : α} : (pure a : Except ε α) = .ok b ↔ a = b := by
  simp [pure, Except.pure]

theorem ensure_ok {ε : Type} {rule : Prop} [Decidable rule] {error : ε} {u : Unit} :
    ensure rule error = .ok u ↔ rule := by
  unfold ensure
  split <;> simp_all

end BlockTensor
