import Mathlib.Data.Finset.Card
import Mathlib.Order.WellFounded
import OffloadFusion.Proofs.Pruning

/-!
# References between modules

Modules refer to the modules that their instructions carry (`Refers`). Without cycles, each has a
greater rank than those it refers to (`Framed.rank_lt`).

The modules that are collected from the main module are **those that it refers to, directly or
through others** (`Framed.exists_liveModules`). Any modules but the main one can be removed, one
after the other (`Linked.exists_removeModules`).
-/

namespace OffloadFusion.Program

open Relation

variable {p q : Program} {i : InstrId} {m k : ModuleId} {inst : Instruction} {fuel : Nat}

/-- An instruction of `m` carries `k`. -/
def Refers (p : Program) (k m : ModuleId) : Prop :=
  ∃ i inst, p.instr? i = some inst ∧ inst.owner = m ∧ k ∈ inst.modules

/-- No module refers to itself, directly or through others. -/
def Acyclic (p : Program) : Prop := ∀ m, ¬ TransGen p.Refers m m

theorem Framed.alive_of_refers (h : p.Framed) (hr : p.Refers k m) : (p.module? k).isSome := by
  obtain ⟨i, inst, hi, -, hk⟩ := hr
  exact (h.referenced hi hk).1

theorem Linked.refers_iff (hl : p.Linked) : p.Refers k m ↔ k ∈ p.references m := by
  rw [references, List.mem_flatMap]
  constructor
  · rintro ⟨i, inst, hi, rfl, hk⟩
    exact ⟨i, hl.listed hi, by rwa [hi]⟩
  · rintro ⟨i, hi, hk⟩
    obtain ⟨inst, hinst, ho⟩ := hl.owned hi
    rw [hinst] at hk
    exact ⟨i, inst, hinst, ho, hk⟩

/-! ## Cycles -/

theorem acyclic_of_measure (f : ModuleId → Nat) (h : ∀ {k m}, p.Refers k m → f k < f m) :
    p.Acyclic := fun m hm =>
  (Subrelation.wf h (measure f).wf).transGen.irrefl.irrefl m hm

theorem index_lt_next (h : (p.module? k).isSome) : k.index < p.modules.next := by
  by_contra hge
  rw [module?, Arena.get?, Arena.next] at *
  rw [Array.getElem?_eq_none (by omega)] at h
  cases h

open Classical in
/-- The number of modules that a module refers to, directly or through others. -/
noncomputable def rank (p : Program) (m : ModuleId) : Nat :=
  ((Finset.range p.modules.next).filter fun k => TransGen p.Refers ⟨k⟩ m).card

open Classical in
theorem rank_le (p : Program) (m : ModuleId) : p.rank m ≤ p.modules.next :=
  (Finset.card_filter_le _ _).trans (Finset.card_range _).le

open Classical in
theorem Framed.rank_lt (h : p.Framed) (ha : p.Acyclic) (hr : p.Refers k m) :
    p.rank k < p.rank m := by
  unfold rank
  apply Finset.card_lt_card
  refine (Finset.ssubset_iff_of_subset fun j hj => ?_).mpr ⟨k.index, ?_, ?_⟩
  · rw [Finset.mem_filter] at hj ⊢
    exact ⟨hj.1, hj.2.tail hr⟩
  · rw [Finset.mem_filter, Finset.mem_range]
    exact ⟨index_lt_next (h.alive_of_refers hr), .single hr⟩
  · rw [Finset.mem_filter]
    exact fun hj => ha k hj.2

theorem Framed.rank_lt_of_transGen (h : p.Framed) (ha : p.Acyclic) (hk : TransGen p.Refers k m) :
    p.rank k < p.rank m := by
  induction hk with
  | single hr => exact h.rank_lt ha hr
  | tail _ hr ih => exact ih.trans (h.rank_lt ha hr)

/-! ## Collecting -/

/-- The modules that are collected are met on the way or reached from the stack. -/
theorem collectModules_sound {live stack collected : List ModuleId}
    (h : p.collectModules fuel live stack = .ok collected) :
    ∀ m ∈ collected, m ∈ live ∨ ∃ k ∈ stack, ReflTransGen (fun a b => a ∈ p.references b) m k := by
  induction fuel generalizing live stack with
  | zero =>
    cases stack with
    | nil =>
      cases h
      exact fun m hm => .inl hm
    | cons k stack => cases h
  | succ fuel ih =>
    cases stack with
    | nil =>
      cases h
      exact fun m hm => .inl hm
    | cons k stack =>
      rw [collectModules] at h
      intro m hm
      split at h
      · obtain hlive | ⟨x, hx, hr⟩ := ih h m hm
        · exact .inl hlive
        · exact .inr ⟨x, List.mem_cons_of_mem k hx, hr⟩
      · simp only [Outcome.bind_ok] at h
        obtain ⟨_, -, h⟩ := h
        obtain hlive | ⟨x, hx, hr⟩ := ih h m hm
        · obtain rfl | hlive := List.mem_cons.mp hlive
          · exact .inr ⟨m, List.mem_cons_self, .refl⟩
          · exact .inl hlive
        · obtain hx | hx := List.mem_append.mp hx
          · exact .inr ⟨k, List.mem_cons_self, hr.tail hx⟩
          · exact .inr ⟨x, List.mem_cons_of_mem k hx, hr⟩

theorem length_references_le (hl : p.Linked) {ms : List ModuleId} (hn : ms.Nodup) :
    (ms.flatMap p.references).length ≤ p.referenceCount := by
  have hbodies : (ms.flatMap p.body).Nodup := by
    refine List.nodup_flatMap.mpr ⟨fun m _ => hl.nodup m, hn.imp fun hne => ?_⟩
    intro i hi hi'
    obtain ⟨inst, hinst, rfl⟩ := hl.owned hi
    exact hne (hl.owner_unique hinst hi')
  have hsub : ms.flatMap p.body ⊆ p.handles := fun i hi => by
    obtain ⟨m, -, hi⟩ := List.mem_flatMap.mp hi
    obtain ⟨inst, hinst, -⟩ := hl.owned hi
    exact mem_handles.mpr ⟨inst, hinst⟩
  have hle := length_flatMap_le (p.carried Instruction.modules) hbodies hsub
  rw [List.flatMap_assoc] at hle
  rw [referenceCount, flatMap_entries Instruction.modules]
  exact hle

/-- Collecting uses up the references of modules that were not met before, so it fails only at a
module that is gone. -/
theorem Linked.exists_collectModules (hl : p.Linked) {live stack : List ModuleId}
    (hn : live.Nodup)
    (hfuel : stack.length + p.referenceCount ≤ fuel + (live.flatMap p.references).length)
    (hstack : ∀ m ∈ stack, (p.module? m).isSome)
    (halive : ∀ m, ∀ k ∈ p.references m, (p.module? k).isSome) :
    ∃ collected, p.collectModules fuel live stack = .ok collected := by
  induction fuel generalizing live stack with
  | zero =>
    cases stack with
    | nil => exact ⟨live, rfl⟩
    | cons m stack =>
      have hle := length_references_le hl hn
      rw [List.length_cons] at hfuel
      omega
  | succ fuel ih =>
    cases stack with
    | nil => exact ⟨live, rfl⟩
    | cons m stack =>
      obtain ⟨hm, hstack⟩ := List.forall_mem_cons.mp hstack
      rw [List.length_cons] at hfuel
      rw [collectModules]
      split
      · exact ih hn (by omega) hstack
      · next hlive =>
        obtain ⟨module, hm⟩ := Option.isSome_iff_exists.mp hm
        have hmodule : p.module m = .ok module := module_ok.mpr hm
        rw [hmodule]
        refine ih (List.nodup_cons.mpr ⟨hlive, hn⟩) ?_
          (List.forall_mem_append.mpr ⟨halive m, hstack⟩)
        rw [List.flatMap_cons, List.length_append, List.length_append]
        omega

/-- **The collected modules are those that the main module reaches.** -/
theorem Framed.exists_liveModules (h : p.Framed) (hmain : (p.module? main).isSome) :
    ∃ live, p.liveModules = .ok live ∧ ∀ m, m ∈ live ↔ ReflTransGen p.Refers m main := by
  have hl := h.toLinked
  have hedge : (fun a b => a ∈ p.references b) = p.Refers := by
    funext a b
    exact propext hl.refers_iff.symm
  obtain ⟨live, hlive⟩ : ∃ live, p.liveModules = .ok live :=
    hl.exists_collectModules List.nodup_nil (by simp; omega)
      (fun m hm => List.mem_singleton.mp hm ▸ hmain)
      fun m k hk => h.alive_of_refers (hl.refers_iff.mpr hk)
  obtain ⟨hstart, -, hclosed⟩ :=
    collectModules_closed (fun m hm => absurd hm List.not_mem_nil) hlive
  refine ⟨live, hlive, fun m => ⟨fun hm => ?_, fun hm => ?_⟩⟩
  · obtain hm | ⟨k, hk, hr⟩ := collectModules_sound hlive m hm
    · exact absurd hm List.not_mem_nil
    · rw [List.mem_singleton.mp hk, hedge] at hr
      exact hr
  · induction hm using ReflTransGen.head_induction_on with
    | refl => exact hstart (List.mem_singleton.mpr rfl)
    | head hab _ ih => exact hclosed _ ih (hl.refers_iff.mp hab)

/-! ## Removing -/

/-- **Different modules that are there can be removed one after the other.** -/
theorem Linked.exists_removeModules {dead : List ModuleId} (hl : p.Linked) (hn : dead.Nodup)
    (hmain : main ∉ dead) (halive : ∀ m ∈ dead, (p.module? m).isSome) :
    ∃ q, dead.forM Edit.removeModule p = .ok ⟨⟩ q := by
  induction dead generalizing p with
  | nil => exact ⟨p, rfl⟩
  | cons m dead ih =>
    obtain ⟨hm, hrest⟩ := List.forall_mem_cons.mp halive
    obtain ⟨hnew, hn⟩ := List.nodup_cons.mp hn
    obtain ⟨module, hm⟩ := Option.isSome_iff_exists.mp hm
    have hne : m ≠ main := fun he => hmain (he ▸ List.mem_cons_self)
    obtain ⟨q, hq⟩ := ih (hl.moduleRemoved hm) hn (fun hmem => hmain (List.mem_cons_of_mem m hmem))
      fun k hk => by
        have hmk : m ≠ k := fun he => hnew (he ▸ hk)
        rw [module?_moduleRemoved, if_neg hmk]
        exact hrest k hk
    exact ⟨q, Action.bind_ok.mpr ⟨⟨⟩, _, Edit.removeModule_ok.mpr ⟨hne, module, hm, rfl⟩, hq⟩⟩

end OffloadFusion.Program
