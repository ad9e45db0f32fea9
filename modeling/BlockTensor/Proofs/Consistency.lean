import BlockTensor.Proofs.Comparisons

/-!
# Which blocks may stand in one tensor

`Tensor.make` compares every block with the first one and stops at the first difference.
`makeLaws` says what that amounts to: it accepts the blocks when every two of them agree,
and otherwise names a length or an inconsistency. Agreement of every two does not mention an
order, so the pairs of keys and blocks may be permuted or left out, and the gradients of a
block may have been added in any order (`consistent_blocks_laws`).
-/

namespace BlockTensor

-- ---------------------------------------------------------------------------
-- Gradients in another order
-- ---------------------------------------------------------------------------

namespace Block

theorem SameLabels.agree {left right : Block} (h : left.SameLabels right) : left.Agree right := by
  cases h with
  | of samples components properties parameters gradients =>
    refine ⟨by rw [samples], by rw [componentNames, components, componentNames],
      by rw [properties], parameters, fun parameter a b ha hb => ?_⟩
    cases gradients parameter a b ha hb with
    | of samples => rw [samples]

theorem Rearranged.agree {old new : Block} (hold : old.Valid) (h : old.Rearranged new) :
    old.Agree new :=
  ((alike_all_iff hold).mp (h.alike hold)).agree

end Block

namespace Tensor

-- ---------------------------------------------------------------------------
-- Errors
-- ---------------------------------------------------------------------------

theorem checkGradientNames_error {first : Gradients} {items : List (String × Block)}
    {error : Error} (h : checkGradientNames first items = .error error) :
    ∃ fault, error = .inconsistentBlocks fault := by
  induction items with
  | nil => cases h
  | cons item rest ih =>
    obtain ⟨parameter, gradient⟩ := item
    rw [checkGradientNames] at h
    split at h
    · cases h
      exact ⟨_, rfl⟩
    · rcases bind_error.mp h with hnames | ⟨_, -, hrest⟩
      · exact ⟨_, (ensure_error.mp hnames).2.symm⟩
      · exact ih hrest

theorem checkAgrees_error {first block : Block} {error : Error}
    (h : checkAgrees first block = .error error) : ∃ fault, error = .inconsistentBlocks fault := by
  simp only [checkAgrees, bind_error, ensure_error] at h
  rcases h with ⟨-, rfl⟩ | ⟨_, -, ⟨-, rfl⟩ | ⟨_, -, ⟨-, rfl⟩ | ⟨_, -, ⟨-, rfl⟩ | ⟨_, -, h⟩⟩⟩⟩
  · exact ⟨_, rfl⟩
  · exact ⟨_, rfl⟩
  · exact ⟨_, rfl⟩
  · exact ⟨_, rfl⟩
  · exact checkGradientNames_error h

theorem checkConsistent_error {blocks : List Block} {error : Error}
    (h : checkConsistent blocks = .error error) : ∃ fault, error = .inconsistentBlocks fault := by
  cases blocks with
  | nil => cases h
  | cons first rest =>
    obtain ⟨block, -, hblock⟩ := exists_of_forM_error h
    exact checkAgrees_error hblock

-- ---------------------------------------------------------------------------
-- Outcomes
-- ---------------------------------------------------------------------------

structure MakeLaws (keys : Labels) (blocks : List Block) : Prop where
  accepts : ∀ tensor, make keys blocks = .ok tensor ↔ keys.length = blocks.length ∧
    (∀ left ∈ blocks, ∀ right ∈ blocks, left.Agree right) ∧ tensor = ⟨keys, blocks⟩
  lengths : make keys blocks = .error (.lengthMismatch .blocks keys.length blocks.length) ↔
    keys.length ≠ blocks.length
  inconsistent : (∃ fault, make keys blocks = .error (.inconsistentBlocks fault)) ↔
    keys.length = blocks.length ∧ ∃ left ∈ blocks, ∃ right ∈ blocks, ¬left.Agree right

theorem make_error {keys : Labels} {blocks : List Block} {error : Error} :
    make keys blocks = .error error ↔
      keys.length ≠ blocks.length ∧ error = .lengthMismatch .blocks keys.length blocks.length ∨
        keys.length = blocks.length ∧ checkConsistent blocks = .error error := by
  simp only [make, bind_error, ensure_error, ensure_ok]
  constructor
  · rintro (⟨hlengths, rfl⟩ | ⟨_, hlengths, hcheck | ⟨_, -, hpure⟩⟩)
    · exact .inl ⟨hlengths, rfl⟩
    · exact .inr ⟨hlengths, hcheck⟩
    · cases hpure
  · rintro (⟨hlengths, rfl⟩ | ⟨hlengths, hcheck⟩)
    · exact .inl ⟨hlengths, rfl⟩
    · exact .inr ⟨(), hlengths, .inl hcheck⟩

theorem makeLaws {keys : Labels} {blocks : List Block}
    (h : ∀ block ∈ blocks, block.gradients.parameters.Nodup) : MakeLaws keys blocks where
  accepts tensor := make_ok h
  lengths := by
    rw [make_error]
    constructor
    · rintro (⟨hlengths, -⟩ | ⟨-, hcheck⟩)
      · exact hlengths
      · obtain ⟨fault, hfault⟩ := checkConsistent_error hcheck
        cases hfault
    · exact fun hlengths => .inl ⟨hlengths, rfl⟩
  inconsistent := by
    simp only [make_error]
    constructor
    · rintro ⟨fault, ⟨-, hfault⟩ | ⟨hlengths, hcheck⟩⟩
      · cases hfault
      · refine ⟨hlengths, ?_⟩
        by_contra hagree
        push Not at hagree
        have hok : checkConsistent blocks = .ok () := (checkConsistent_ok h).mpr hagree
        cases hok.symm.trans hcheck
    · rintro ⟨hlengths, left, hleft, right, hright, hdisagree⟩
      cases hcheck : checkConsistent blocks with
      | ok => exact absurd ((checkConsistent_ok h).mp hcheck left hleft right hright) hdisagree
      | error error =>
        obtain ⟨fault, rfl⟩ := checkConsistent_error hcheck
        exact ⟨fault, .inr ⟨hlengths, rfl⟩⟩

-- ---------------------------------------------------------------------------
-- Order
-- ---------------------------------------------------------------------------

theorem exists_make_iff {keys : Labels} {blocks : List Block}
    (h : ∀ block ∈ blocks, block.gradients.parameters.Nodup) :
    (∃ tensor, make keys blocks = .ok tensor) ↔ keys.length = blocks.length ∧
      ∀ left ∈ blocks, ∀ right ∈ blocks, left.Agree right := by
  simp only [make_ok h]
  exact ⟨fun ⟨_, hlengths, hagree, _⟩ => ⟨hlengths, hagree⟩,
    fun ⟨hlengths, hagree⟩ => ⟨_, hlengths, hagree, rfl⟩⟩

def ofPairs (names : List String) (pairs : List (Entry × Block)) : Except Error Tensor :=
  make ⟨⟨names, pairs.map Prod.fst⟩⟩ (pairs.map Prod.snd)

theorem exists_ofPairs_iff {names : List String} {pairs : List (Entry × Block)}
    (h : ∀ pair ∈ pairs, pair.2.Valid) : (∃ tensor, ofPairs names pairs = .ok tensor) ↔
      ∀ left ∈ pairs, ∀ right ∈ pairs, left.2.Agree right.2 := by
  have hdistinct : ∀ block ∈ pairs.map Prod.snd, block.gradients.parameters.Nodup :=
    List.forall_mem_map.mpr fun pair hmem => (h pair hmem).distinct
  rw [ofPairs, exists_make_iff hdistinct]
  simp only [List.forall_mem_map]
  exact and_iff_right (by simp [Rows.length])

theorem ofPairs_subset {names : List String} {pairs fewer : List (Entry × Block)}
    (h : ∀ pair ∈ pairs, pair.2.Valid) (hfewer : fewer ⊆ pairs)
    (haccepted : ∃ tensor, ofPairs names pairs = .ok tensor) :
    ∃ tensor, ofPairs names fewer = .ok tensor := by
  have hagree := (exists_ofPairs_iff h).mp haccepted
  refine (exists_ofPairs_iff fun pair hmem => h pair (hfewer hmem)).mpr ?_
  exact fun left hleft right hright => hagree left (hfewer hleft) right (hfewer hright)

theorem make_rearranged {keys : Labels} {olds news : List Block}
    (holds : ∀ block ∈ olds, block.Valid) (h : List.Forall₂ Block.Rearranged olds news) :
    (∃ tensor, make keys news = .ok tensor) ↔ ∃ tensor, make keys olds = .ok tensor := by
  have hagree : ∀ old ∈ olds, ∀ new, old.Rearranged new → old.Agree new :=
    fun old hold new hnew => hnew.agree (holds old hold)
  have hnews : ∀ new ∈ news, ∃ old ∈ olds, old.Rearranged new := fun new => exists_of_forall₂ h
  have hdistinct : ∀ new ∈ news, new.gradients.parameters.Nodup := by
    intro new hnew
    obtain ⟨old, hold, hrearranged⟩ := hnews new hnew
    exact hrearranged.parameters.nodup_iff.mpr (holds old hold).distinct
  rw [exists_make_iff fun block hmem => (holds block hmem).distinct, exists_make_iff hdistinct,
    h.length_eq]
  refine and_congr_right fun _ => ⟨fun hall a ha b hb => ?_, fun hall a ha b hb => ?_⟩
  · obtain ⟨a', ha', hto⟩ := exists_of_forall₂ h.flip ha
    obtain ⟨b', hb', hto'⟩ := exists_of_forall₂ h.flip hb
    exact ((hagree a ha a' hto).trans (hall a' ha' b' hb')).trans (hagree b hb b' hto').symm
  · obtain ⟨a', ha', hfrom⟩ := hnews a ha
    obtain ⟨b', hb', hfrom'⟩ := hnews b hb
    exact ((hagree a' ha' a hfrom).symm.trans (hall a' ha' b' hb')).trans (hagree b' hb' b hfrom')

end Tensor

/-- What `Tensor.make` accepts, and that it still does when the pairs of keys and blocks are
permuted or left out, or the gradients of any depth stand in another order, as they do when
they are added in another order. -/
theorem consistent_blocks_laws :
    (∀ keys blocks, (∀ block ∈ blocks, block.Valid) → Tensor.MakeLaws keys blocks) ∧
    (∀ names pairs others, (∀ pair ∈ pairs, pair.2.Valid) → others.Perm pairs →
      ((∃ tensor, Tensor.ofPairs names others = .ok tensor) ↔
        ∃ tensor, Tensor.ofPairs names pairs = .ok tensor)) ∧
    (∀ names pairs fewer, (∀ pair ∈ pairs, pair.2.Valid) → fewer.Sublist pairs →
      (∃ tensor, Tensor.ofPairs names pairs = .ok tensor) →
        ∃ tensor, Tensor.ofPairs names fewer = .ok tensor) ∧
    (∀ keys olds news, (∀ block ∈ olds, block.Valid) →
      List.Forall₂ Block.Rearranged olds news →
        ((∃ tensor, Tensor.make keys news = .ok tensor) ↔
          ∃ tensor, Tensor.make keys olds = .ok tensor)) ∧
    ∀ (parent old : Block) (items others : List (String × Block)), others.Perm items →
      parent.attachAll items = .ok old →
        ∃ new, parent.attachAll others = .ok new ∧ old.Rearranged new := by
  refine ⟨fun keys blocks h => Tensor.makeLaws fun block hmem => (h block hmem).distinct,
    fun names pairs others h horder => ?_,
    fun names pairs fewer h hfewer => Tensor.ofPairs_subset h hfewer.subset,
    fun keys olds news => Tensor.make_rearranged,
    fun parent old items others => Block.attachAll_of_perm⟩
  have hothers : ∀ pair ∈ others, pair.2.Valid := fun pair hmem => h pair (horder.subset hmem)
  exact ⟨Tensor.ofPairs_subset hothers horder.symm.subset, Tensor.ofPairs_subset h horder.subset⟩

def twoGradients : List (String × Block) :=
  [("positions", flatColumn [.zero]), ("cell", flatColumn [.one])]

theorem consistent_blocks_nested :
    let pairs := nestedTensor.items
    let parent := column (counted 1) [.zero] .nil
    let old := column (counted 1) [.zero] (.ofList twoGradients)
    (∀ pair ∈ pairs, pair.2.Valid) ∧ Tensor.MakeLaws nestedTensor.keys nestedTensor.blocks ∧
      (∃ tensor, Tensor.ofPairs ["key"] pairs.reverse = .ok tensor) ∧
      (∃ tensor, Tensor.ofPairs ["key"] pairs.tail = .ok tensor) ∧
      old.Valid ∧ parent.attachAll twoGradients = .ok old ∧
      ∃ new, parent.attachAll twoGradients.reverse = .ok new ∧ old.Rearranged new ∧
        ∃ tensor, Tensor.make .single [new] = .ok tensor := by
  have hold : (Tensor.mk .single [column (counted 1) [.zero] (.ofList twoGradients)]).Valid :=
    Archive.valid_of_record rfl
  intro pairs parent old
  obtain ⟨hlaws, hperm, hsublist, hrearranged, hattach⟩ := consistent_blocks_laws
  have hpairs : ∀ pair ∈ pairs, pair.2.Valid :=
    fun pair hmem => nestedTensor_valid.blocks _ (List.of_mem_zip hmem).2
  have hmade : ∃ tensor, Tensor.ofPairs ["key"] pairs = .ok tensor := ⟨nestedTensor, rfl⟩
  have hattached : parent.attachAll twoGradients = .ok old := rfl
  obtain ⟨new, hnew, h⟩ := hattach parent old _ _ twoGradients.reverse_perm hattached
  refine ⟨hpairs, hlaws _ _ nestedTensor_valid.blocks,
    (hperm _ pairs _ hpairs pairs.reverse_perm).mpr hmade,
    hsublist _ pairs _ hpairs pairs.tail_sublist hmade,
    hold.blocks _ List.mem_cons_self, hattached, new, hnew, h, ?_⟩
  exact (hrearranged _ _ _ hold.blocks (.cons h .nil)).mpr ⟨_, hold.make⟩

end BlockTensor
