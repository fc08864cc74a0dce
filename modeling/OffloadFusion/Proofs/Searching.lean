import Mathlib.Data.List.Chain
import OffloadFusion.Proofs.Dependence

/-!
# Searches end

A search keeps what it has visited and what is left to visit (`Tour`). In a `Round` it takes out
one instruction, whichever, and puts in the operands of a new one. It ends at its target, or when
nothing is left.

* `Round.pending_lt`: a round leaves less to do, whether operands lead in circles or to instructions
  that are gone.
* `Searching`: what is left to visit leads to the start, and what is visited is closed under
  operands up to that.
* **`reaches_exact`**: every search ends, and where it ends it gives the answer of `reaches`, which
  tells whether a path of operands leads from one instruction to the other.
-/

namespace OffloadFusion.Program

variable {p : Program} {a b i target : InstrId}

/-! ## Rounds -/

/-- What a search has visited and what is left to visit. -/
structure Tour where
  visited : List InstrId
  left : List InstrId

namespace Tour

/-- A search starts with nothing visited and one instruction to visit. -/
def start (i : InstrId) : Tour := ⟨[], [i]⟩

/-- The instructions left to visit, with the operands of those that are new. -/
def pending (p : Program) (s : Tour) : Nat := s.left.length + (p.pending s.visited).length

theorem pending_start (p : Program) (i : InstrId) : (start i).pending p = p.inputCount + 1 := by
  rw [pending, start, length_pending_nil, List.length_singleton, Nat.add_comm]

end Tour

/-- One round of a search: an instruction that is left to visit, but not the target, is taken out in
any order. If it is new, its operands are put in. -/
inductive Round (p : Program) (target : InstrId) : Tour → Tour → Prop
  | skip {i : InstrId} {visited left rest : List InstrId} (hleft : left.Perm (i :: rest))
      (hne : i ≠ target) (hseen : i ∈ visited) : Round p target ⟨visited, left⟩ ⟨visited, rest⟩
  | expand {i : InstrId} {visited left rest : List InstrId} (hleft : left.Perm (i :: rest))
      (hne : i ≠ target) (hnew : i ∉ visited) :
      Round p target ⟨visited, left⟩ ⟨i :: visited, p.operands i ++ rest⟩

/-- **A round leaves less to do.** -/
theorem Round.pending_lt {s s' : Tour} (h : p.Round target s s') : s'.pending p < s.pending p := by
  cases h with
  | skip hleft hne hseen =>
    simp only [Tour.pending, hleft.length_eq, List.length_cons]
    omega
  | expand hleft hne hnew =>
    have hlen := length_pending_cons (p := p) hnew
    simp only [Tour.pending, hleft.length_eq, List.length_cons, List.length_append]
    omega

/-- There are no more rounds than there is to do. -/
theorem length_le_of_rounds {s : Tour} {tours : List Tour}
    (h : (s :: tours).IsChain (p.Round target)) : tours.length ≤ s.pending p := by
  induction tours generalizing s with
  | nil => exact Nat.zero_le _
  | cons s' tours ih =>
    obtain ⟨hround, hrest⟩ := List.isChain_cons_cons.mp h
    exact Nat.lt_of_le_of_lt (ih hrest) hround.pending_lt

theorem exists_round {visited left : List InstrId} (hleft : left ≠ []) (htarget : target ∉ left) :
    ∃ s, p.Round target ⟨visited, left⟩ s := by
  obtain ⟨i, rest, rfl⟩ := List.exists_cons_of_ne_nil hleft
  have hne : i ≠ target := fun he => htarget (he ▸ List.mem_cons_self)
  by_cases hseen : i ∈ visited
  · exact ⟨_, .skip (.refl _) hne hseen⟩
  · exact ⟨_, .expand (.refl _) hne hseen⟩

/-! ## What a search knows -/

/-- A search for `a` from `b`: what it has visited and what is left. -/
structure Searching (p : Program) (a b : InstrId) (s : Tour) : Prop where
  /-- What is left leads to the start. -/
  sound : ∀ i ∈ s.left, p.DependsOn i b
  covered : p.Covered a s.visited s.left
  started : b ∈ s.visited ∨ b ∈ s.left

theorem searching_start (p : Program) (a b : InstrId) : p.Searching a b (.start b) where
  sound _ hi := List.mem_singleton.mp hi ▸ .refl
  covered := ⟨nofun, List.not_mem_nil⟩
  started := .inr (List.mem_singleton.mpr rfl)

theorem Searching.round {s s' : Tour} (h : p.Searching a b s) (hround : p.Round a s s') :
    p.Searching a b s' := by
  cases hround with
  | @skip i visited left rest hleft hne hseen =>
    -- what was taken out is visited
    have hmem : ∀ {x}, x ∈ visited ∨ x ∈ left → x ∈ visited ∨ x ∈ rest := fun {x} hx => by
      rw [hleft.mem_iff, List.mem_cons] at hx
      obtain hx | rfl | hx := hx
      · exact .inl hx
      · exact .inl hseen
      · exact .inr hx
    exact ⟨fun j hj => h.sound j (hleft.mem_iff.mpr (List.mem_cons_of_mem i hj)),
      ⟨fun j hj x hx => hmem (h.covered.closed j hj x hx), h.covered.target⟩, hmem h.started⟩
  | @expand i visited left rest hleft hne hnew =>
    have hi : p.DependsOn i b := h.sound i (hleft.mem_iff.mpr List.mem_cons_self)
    have hmem : ∀ {x}, x ∈ visited ∨ x ∈ left →
        x ∈ i :: visited ∨ x ∈ p.operands i ++ rest := fun {x} hx => by
      rw [hleft.mem_iff, List.mem_cons] at hx
      obtain hx | rfl | hx := hx
      · exact .inl (List.mem_cons_of_mem i hx)
      · exact .inl List.mem_cons_self
      · exact .inr (List.mem_append_right _ hx)
    refine ⟨fun j hj => ?_, ⟨fun j hj x hx => ?_, ?_⟩, hmem h.started⟩
    · obtain hj | hj := List.mem_append.mp hj
      · exact .head (mem_operands.mp hj) hi
      · exact h.sound j (hleft.mem_iff.mpr (List.mem_cons_of_mem i hj))
    · obtain rfl | hj := List.mem_cons.mp hj
      · exact .inr (List.mem_append_left _ (mem_operands.mpr hx))
      · exact hmem (h.covered.closed j hj x hx)
    · exact List.not_mem_cons_of_ne_of_not_mem (Ne.symm hne) h.covered.target

theorem searching_of_rounds {s : Tour} (h : Relation.ReflTransGen (p.Round a) (.start b) s) :
    p.Searching a b s := by
  induction h with
  | refl => exact searching_start p a b
  | tail _ hround ih => exact ih.round hround

/-- A search that has nothing left has met everything on which its start depends. -/
theorem Searching.not_dependsOn {visited : List InstrId} (h : p.Searching a b ⟨visited, []⟩) :
    ¬ p.DependsOn a b := fun hd =>
  h.covered.target
    (h.covered.mem_of_dependsOn hd (h.started.resolve_right List.not_mem_nil))

/-! ## Paths -/

theorem dependsOn_iff_path : p.DependsOn a b ↔
    ∃ path, (b :: path).IsChain p.Uses ∧ (b :: path).getLast (List.cons_ne_nil b path) = a := by
  rw [DependsOn, show (fun x y => p.Uses y x) = Function.swap p.Uses from rfl,
    Relation.reflTransGen_swap]
  constructor
  · exact List.exists_isChain_cons_of_relationReflTransGen
  · rintro ⟨path, hpath, hlast⟩
    exact List.relationReflTransGen_of_exists_isChain_cons path hpath hlast

/-- **The search for dependence ends and decides it**, also where operands lead in circles or to
instructions that are gone.

* A search makes at most one round for each operand and one for its start. It can only stop with
  nothing left or with its target left; both times its answer is that of `reaches`, so the bound of
  `reaches` does not count.
* The answer is whether `b` is `a`, or operands of instructions that are there lead from `b` to
  `a`. -/
theorem reaches_exact (p : Program) (a b : InstrId) :
    (∀ tours, (Tour.start b :: tours).IsChain (p.Round a) → tours.length ≤ p.inputCount + 1) ∧
      (∀ visited left, Relation.ReflTransGen (p.Round a) (.start b) ⟨visited, left⟩ →
        (left = [] → p.reaches a b = false) ∧ (a ∈ left → p.reaches a b = true) ∧
          (left ≠ [] → a ∉ left → ∃ s, p.Round a ⟨visited, left⟩ s)) ∧
      (∀ fuel, p.inputCount + 2 ≤ fuel → p.search a fuel [] [b] = p.reaches a b) ∧
      (p.reaches a b = true ↔ a = b ∨ ∃ path, (b :: path).IsChain
        (fun user operand => ∃ inst, p.instr? user = some inst ∧ operand ∈ inst.inputs) ∧
          (b :: path).getLast (List.cons_ne_nil b path) = a) := by
  refine ⟨fun tours h => ?_, fun visited left h => ⟨?_, fun ha => ?_, exists_round⟩,
    fun fuel hfuel => ?_, ?_⟩
  · exact Tour.pending_start p b ▸ length_le_of_rounds h
  · rintro rfl
    exact Bool.eq_false_iff.mpr fun hreach =>
      (searching_of_rounds h).not_dependsOn (reaches_iff.mp hreach)
  · exact reaches_iff.mpr ((searching_of_rounds h).sound a ha)
  · rw [Bool.eq_iff_iff, search_iff hfuel, reaches_iff]
  · rw [reaches_iff, dependsOn_iff_path]
    refine ⟨.inr, ?_⟩
    rintro (rfl | hpath)
    · exact ⟨[], .singleton _, rfl⟩
    · exact hpath

/-- Two sums that use each other and an instruction that is gone. -/
example :
    let sum (inputs : List InstrId) : Instruction := ⟨.binary .add, inputs, [], .tuple [], [], main⟩
    let p : Program := ⟨⟨#[some (sum [⟨1⟩, ⟨1⟩]), some (sum [⟨0⟩, ⟨2⟩]), none]⟩, .empty, [], []⟩
    p.reaches ⟨1⟩ ⟨0⟩ ∧ p.reaches ⟨2⟩ ⟨0⟩ ∧ ¬ p.reaches ⟨0⟩ ⟨2⟩ ∧ ¬ p.reaches ⟨3⟩ ⟨0⟩ := by
  decide

end OffloadFusion.Program
