import OffloadFusion.Proofs.Pruning
import OffloadFusion.Proofs.Relocation

/-!
# Moving one instruction

`Edit.moveBefore i place` takes `i` out of the order of its module and then looks for `place` in
what is left. For a verified program there are three cases (**`Program.moveBefore_exact`**): of two
instructions of one module the first is put just before the second and nothing else changes; an
instruction that is to stand before itself is refused once it is out of the order, and so it is
lost; any other pair is refused before anything changes.

* `Arena.modify_modify`, `modifyBody_modifyBody`: changes at one place.
* `moveBefore_eq`: the outcome for two instructions of one module, by their positions.
* `moveBefore_self`: the refusal that leaves a program changed.
-/

namespace OffloadFusion

theorem Arena.modify_modify {α : Type} (a : Arena α) (n : Nat) (f g : α → α) :
    (a.modify n f).modify n g = a.modify n (g ∘ f) := by
  refine congrArg Arena.mk (Array.ext_getElem? fun k => ?_)
  simp only [Arena.modify, Array.getElem?_modify]
  split
  · rw [Option.map_map, Option.map_comp_map]
  · rfl

theorem Arena.modify_congr {α : Type} {a : Arena α} {n : Nat} {f g : α → α}
    (h : ∀ x, a.get? n = some x → f x = g x) : a.modify n f = a.modify n g := by
  refine congrArg Arena.mk (Array.ext_getElem? fun k => ?_)
  rw [Array.getElem?_modify, Array.getElem?_modify]
  split
  · next hk =>
    subst hk
    cases hc : a.cells[n]? with
    | none => rfl
    | some cell =>
      cases cell with
      | none => rfl
      | some x => simp [h x (by rw [Arena.get?, hc]; rfl)]
  · rfl

namespace Program

variable {p q : Program} {i place : InstrId} {m k : ModuleId} {source target : Nat}
  {pre post : List InstrId}

/-! ## Orders of modules -/

theorem modifyBody_modifyBody (p : Program) (m : ModuleId) (f g : List InstrId → List InstrId) :
    (p.modifyBody m f).modifyBody m g = p.modifyBody m (g ∘ f) := by
  rw [modifyBody, modifyBody, Arena.modify_modify]
  rfl

theorem modifyBody_congr {f g : List InstrId → List InstrId} (h : f (p.body m) = g (p.body m)) :
    p.modifyBody m f = p.modifyBody m g := by
  refine congrArg (fun modules => { p with modules }) (Arena.modify_congr fun module hm => ?_)
  rw [body_of_module? hm] at h
  rw [h]

theorem body_modifyBody_self (hi : i ∈ p.body m) (f : List InstrId → List InstrId) :
    (p.modifyBody m f).body m = f (p.body m) := by
  obtain ⟨module, hm, hb⟩ := module?_of_mem_body hi
  have hm' : (p.modifyBody m f).module? m = some { module with body := f module.body } := by
    rw [module?_modifyBody, if_pos rfl, hm]
    rfl
  rw [body_of_module? hm', ← hb]

/-! ## The outcomes -/

theorem Linked.locate_error (hl : p.Linked) (hi : ∀ m, i ∉ p.body m) :
    p.locate i = .error (.refused (.unknownInstruction i)) := by
  have hnone : p.instr? i = none := by
    cases hinst : p.instr? i with
    | none => rfl
    | some inst => exact absurd (hl.listed hinst) (hi _)
  rw [locate, findInstr, hnone]
  rfl

theorem moveBefore_eq (hi : i ∈ p.body m) (hsource : p.locate i = .ok (m, source))
    (hplace : p.locate place = .ok (m, target)) : Edit.moveBefore i place p =
      match ((p.body m).eraseIdx source).idxOf? place with
      | some n => .ok ⟨⟩ (p.modifyBody m fun l => (l.eraseIdx source).insertIdx n i)
      | none => .error (.refused (.unknownInstruction place))
          (p.modifyBody m fun l => l.eraseIdx source) := by
  refine (Action.lift_bind_of_ok _ p hsource).trans ((Action.lift_bind_of_ok _ p hplace).trans ?_)
  change (if m ≠ m then _ else _ : Edit Unit) p = _
  rw [if_neg (not_not.mpr rfl)]
  change (match ((p.modifyBody m _).body m).idxOf? place with | some _ => _ | none => _ : Edit Unit)
    _ = _
  rw [body_modifyBody_self hi]
  cases ((p.body m).eraseIdx source).idxOf? place with
  | some n => exact congrArg (EStateM.Result.ok PUnit.unit) (modifyBody_modifyBody p m _ _)
  | none => rfl

theorem Linked.moveBefore_ok (hl : p.Linked) (hi : i ∈ p.body m) (hplace : place ∈ p.body m)
    (hne : i ≠ place) : ∃ pre post, (p.body m).filter (· ≠ i) = pre ++ place :: post ∧
      Edit.moveBefore i place p = .ok ⟨⟩ (p.modifyBody m fun _ => pre ++ i :: place :: post) := by
  obtain ⟨source, hsource, hidx⟩ := hl.exists_locate hi
  obtain ⟨target, htarget, -⟩ := hl.exists_locate hplace
  have hrest := eraseIdx_of_idxOf? (hl.nodup m) hidx
  have hmem : place ∈ (p.body m).filter (· ≠ i) :=
    List.mem_filter.mpr ⟨hplace, decide_eq_true hne.symm⟩
  obtain ⟨pre, post, hsplit⟩ := List.append_of_mem hmem
  refine ⟨pre, post, hsplit, ?_⟩
  have hpre : place ∉ pre := fun hin =>
    (List.nodup_append.mp (hsplit ▸ (hl.nodup m).filter _)).2.2 place hin place (by simp) rfl
  have hfound : ((p.body m).eraseIdx source).idxOf? place = some pre.length := by
    rw [hrest, hsplit, idxOf?_append_cons hpre]
  rw [moveBefore_eq hi hsource htarget, hfound]
  refine congrArg (EStateM.Result.ok PUnit.unit) (modifyBody_congr ?_)
  rw [hrest, hsplit, insertIdx_eq_take_drop (by simp), List.take_left, List.drop_left]

/-- An instruction that is to stand before itself is lost: it is refused only once it is out of the
order. -/
theorem Linked.moveBefore_self (hl : p.Linked) (hi : i ∈ p.body m) : Edit.moveBefore i i p =
    .error (.refused (.unknownInstruction i)) (p.modifyBody m fun l => l.filter (· ≠ i)) := by
  obtain ⟨source, hsource, hidx⟩ := hl.exists_locate hi
  have hrest := eraseIdx_of_idxOf? (hl.nodup m) hidx
  have hnone : ((p.body m).eraseIdx source).idxOf? i = none := by
    rw [hrest, List.idxOf?_eq_none_iff]
    simp
  rw [moveBefore_eq hi hsource hsource, hnone]
  exact congrArg _ (modifyBody_congr hrest)

theorem Linked.moveBefore_refused (hl : p.Linked) (h : ∀ m, i ∈ p.body m → place ∉ p.body m) :
    ∃ reason, Edit.moveBefore i place p = .error (.refused reason) p := by
  by_cases hi : ∃ m, i ∈ p.body m
  · obtain ⟨m, hi⟩ := hi
    obtain ⟨source, hsource, -⟩ := hl.exists_locate hi
    by_cases hplace : ∃ k, place ∈ p.body k
    · obtain ⟨k, hplace⟩ := hplace
      obtain ⟨target, htarget, -⟩ := hl.exists_locate hplace
      obtain ⟨module, hk, -⟩ := module?_of_mem_body hplace
      have hne : m ≠ k := fun he => h m hi (he ▸ hplace)
      refine ⟨.foreignInstruction i module.name, (Action.lift_bind_of_ok _ p hsource).trans
        ((Action.lift_bind_of_ok _ p htarget).trans ?_)⟩
      change (if m ≠ k then _ else _ : Edit Unit) p = _
      rw [if_pos hne]
      exact Action.lift_bind_of_ok _ p (findModule_ok.mpr hk)
    · have hnone := hl.locate_error fun k hk => hplace ⟨k, hk⟩
      exact ⟨.unknownInstruction place,
        (Action.lift_bind_of_ok _ p hsource).trans (Action.lift_bind_of_error _ p hnone)⟩
  · have hnone := hl.locate_error fun k hk => hi ⟨k, hk⟩
    exact ⟨.unknownInstruction i, Action.lift_bind_of_error _ p hnone⟩

/-- **What moving an instruction to just before another one does to a verified program.** Where one
module has both, the first is taken out of the order and put back just before the second, and
nothing else changes. An instruction that is to stand before itself is refused after it is taken out
of the order. Everything else is refused and changes nothing. -/
theorem moveBefore_exact (h : p.verify = .ok ⟨⟩) (i place : InstrId) :
    (∃ m pre post, i ≠ place ∧ i ∈ p.body m ∧ (p.body m).filter (· ≠ i) = pre ++ place :: post ∧
      Edit.moveBefore i place p = .ok ⟨⟩ (p.modifyBody m fun _ => pre ++ i :: place :: post)) ∨
    (∃ m, i = place ∧ i ∈ p.body m ∧ Edit.moveBefore i place p =
      .error (.refused (.unknownInstruction i)) (p.modifyBody m fun l => l.filter (· ≠ i))) ∨
    (∀ m, i ∈ p.body m → place ∉ p.body m) ∧
      ∃ reason, Edit.moveBefore i place p = .error (.refused reason) p := by
  have hl : p.Linked := (verify_ok.mp h).toLinked
  by_cases hboth : ∃ m, i ∈ p.body m ∧ place ∈ p.body m
  · obtain ⟨m, hi, hplace⟩ := hboth
    by_cases hne : i = place
    · subst hne
      exact .inr (.inl ⟨m, rfl, hi, hl.moveBefore_self hi⟩)
    · obtain ⟨pre, post, hsplit, hmove⟩ := hl.moveBefore_ok hi hplace hne
      exact .inl ⟨m, pre, post, hne, hi, hsplit, hmove⟩
  · have hapart : ∀ m, i ∈ p.body m → place ∉ p.body m := fun m hi hp => hboth ⟨m, hi, hp⟩
    exact .inr (.inr ⟨hapart, hl.moveBefore_refused hapart⟩)

/-- A matrix read by two instructions, one of them returned. -/
def readTwice : Program :=
  (do
    let x ← Edit.addParameter main "x" ⟨.f32, [2, 3], [3, 1]⟩
    let _ ← Edit.addInstruction main (.reindex (.transpose [1, 0])) [x] []
    let r ← Edit.addInstruction main (.unary .relu) [x] []
    let _ ← Edit.addReturn main [r] : Edit Unit).after .empty

/-- The second reader is put before the first one. -/
theorem moveBefore_exact_readers :
    readTwice.verify = .ok ⟨⟩ ∧ ∃ m pre post, (⟨2⟩ : InstrId) ≠ ⟨1⟩ ∧ ⟨2⟩ ∈ readTwice.body m ∧
      (readTwice.body m).filter (· ≠ ⟨2⟩) = pre ++ ⟨1⟩ :: post ∧
      Edit.moveBefore ⟨2⟩ ⟨1⟩ readTwice =
        .ok ⟨⟩ (readTwice.modifyBody m fun _ => pre ++ ⟨2⟩ :: ⟨1⟩ :: post) := by
  have hv : readTwice.verify = .ok ⟨⟩ := by decide +kernel
  have hone : ⟨2⟩ ∈ readTwice.body main := by decide +kernel
  have htwo : ⟨1⟩ ∈ readTwice.body main := by decide +kernel
  refine ⟨hv, ?_⟩
  obtain hmoved | ⟨_, he, -⟩ | ⟨hapart, -⟩ := moveBefore_exact hv ⟨2⟩ ⟨1⟩
  · exact hmoved
  · cases he
  · exact absurd htwo (hapart main hone)

/-- The operand of a return is to stand before itself: the move is refused, and the order is without
it. -/
theorem lost_before_itself :
    readTwice.verify = .ok ⟨⟩ ∧ readTwice.body main = [⟨0⟩, ⟨1⟩, ⟨2⟩, ⟨3⟩] ∧ ∃ q,
      Edit.moveBefore ⟨2⟩ ⟨2⟩ readTwice = .error (.refused (.unknownInstruction ⟨2⟩)) q ∧
      q.body main = [⟨0⟩, ⟨1⟩, ⟨3⟩] ∧ q.verify ≠ .ok ⟨⟩ := by
  refine ⟨by decide +kernel, by decide +kernel, ?_⟩
  obtain ⟨_, q, hmove, rfl, hlost⟩ : ∃ e q,
      Edit.moveBefore ⟨2⟩ ⟨2⟩ readTwice = .error (.refused e) q ∧ e = .unknownInstruction ⟨2⟩ ∧
        q.body main = [⟨0⟩, ⟨1⟩, ⟨3⟩] ∧ q.verify ≠ .ok ⟨⟩ := by decide +kernel
  exact ⟨q, hmove, hlost⟩

end Program
end OffloadFusion
