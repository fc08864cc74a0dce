import OffloadFusion.Proofs.InRange
import OffloadFusion.Proofs.Linked
import OffloadFusion.Proofs.Signatures

/-!
# Lapses

Two things can go wrong on the way through a linked program, and only two (`Fault.Lapse`): a size or
a stride overflows, or a view reads beyond the end of the strides of its operand. The second takes a
type that is `loose`, that is, without a stride for each axis.

* `Op.lapses_inferType`: type rules have no other fault.
* `Program.lapses_infer`, `Program.lapses_verify`: nor do type inference and verification of a
  program.
-/

namespace OffloadFusion

open Typing

/-- An overflow or, where types may be loose, a position out of range. -/
def Fault.Lapse (loose : Prop) (e : Fault) : Prop := e = .overflow ∨ loose ∧ e = .outOfRange

/-- The computation has no fault but lapses. -/
abbrev Lapses {ε α : Type} [Faulting ε] (loose : Prop) (x : Except ε α) : Prop :=
  FaultsIn (Fault.Lapse loose) x

variable {loose : Prop}

theorem Fault.lapse_overflow : Fault.overflow.Lapse loose := .inl rfl

theorem Fault.lapse_outOfRange (h : loose) : Fault.outOfRange.Lapse loose := .inr ⟨h, rfl⟩

theorem FaultsIn.mono {ε α : Type} [Faulting ε] {P Q : Fault → Prop} {x : Except ε α}
    (h : FaultsIn P x) (hPQ : ∀ e, P e → Q e) : FaultsIn Q x := fun e he => hPQ e (h e he)

@[simp] theorem faultsIn_fault {α : Type} {P : Fault → Prop} {e : Fault} :
    FaultsIn P (.error e : Checked α) ↔ P e :=
  ⟨fun h => h e rfl, fun h _ he => by cases he; exact h⟩

@[simp] theorem faultsIn_lift_typed {α : Type} {P : Fault → Prop} {x : Outcome TypeError α} :
    FaultsIn P (liftM x : Outcome GraphError α) ↔ FaultsIn P x := by
  cases x with
  | ok a => simp [FaultsIn, liftM, monadLift, MonadLift.monadLift, Except.mapError]
  | error e => cases e <;> simp [FaultsIn, liftM, monadLift, MonadLift.monadLift, Except.mapError,
      Faulting.fault, Failure.map]

/-! ## Checked arithmetic -/

namespace Checked

variable {α : Type} {a b n i : Nat} {xs : List α}

@[simp] theorem lapses_size : Lapses loose (size n) := by
  unfold size
  split <;> simp [Fault.lapse_overflow]

@[simp] theorem lapses_add : Lapses loose (add a b) := lapses_size

@[simp] theorem lapses_mul : Lapses loose (mul a b) := lapses_size

@[simp] theorem lapses_sub : Lapses loose (sub a b) := by
  unfold sub
  split <;> simp [Fault.lapse_overflow]

@[simp] theorem lapses_stride {z : Int} : Lapses loose (stride z) := by
  unfold stride
  split <;> simp [Fault.lapse_overflow]

@[simp] theorem lapses_product {ns : List Nat} : Lapses loose (product ns) :=
  faultsIn_foldlM (I := fun _ => True) (fun _ _ _ _ => lapses_mul) (fun _ _ => trivial) trivial

@[simp] theorem lapses_sum {ns : List Nat} : Lapses loose (sum ns) :=
  faultsIn_foldlM (I := fun _ => True) (fun _ _ _ _ => lapses_add) (fun _ _ => trivial) trivial

section

variable (h : loose)

include h

theorem lapses_get : Lapses loose (get xs i) := by
  unfold get
  split <;> simp [Fault.lapse_outOfRange h]

theorem lapses_set {x : α} : Lapses loose (set xs i x) := by
  unfold set
  split <;> simp [Fault.lapse_outOfRange h]

theorem lapses_insert {x : α} : Lapses loose (insert xs i x) := by
  unfold insert
  split <;> simp [Fault.lapse_outOfRange h]

theorem lapses_erase : Lapses loose (erase xs i) := by
  unfold erase
  split <;> simp [Fault.lapse_outOfRange h]

end

end Checked

/-! ## Tensors -/

theorem Shape.lapses_rowMajorFrom {s : Shape} : Lapses loose s.rowMajorFrom := by
  induction s with
  | nil => exact faultsIn_ok
  | cons d s ih => simp [rowMajorFrom, ih]

namespace TensorType

variable {t : TensorType} {dtype : DType} {s : Shape}

@[simp] theorem lapses_standard : Lapses loose (standard dtype s) := by
  simp [standard, Shape.rowMajor, Shape.lapses_rowMajorFrom]

@[simp] theorem lapses_asStandard : Lapses loose t.asStandard := lapses_standard

theorem ranked_of_asStandard {u : TensorType} (h : t.asStandard = .ok u) : u.Ranked :=
  Arithmetic.machine.delivers_standard.result u (by rwa [Arithmetic.machine_standard])

@[simp] theorem lapses_numel : Lapses loose t.numel := Checked.lapses_product

end TensorType

@[simp] theorem Op.lapses_acceptsLayout {t : TensorType} : Lapses loose (acceptsLayout t) := by
  simp [acceptsLayout, TensorType.isPacked, TensorType.elementSpace, faultsIn_mapM]

@[simp] theorem LiteralData.lapses_scalar {dtype : DType} {value : Single} :
    Lapses loose (scalar dtype value) := by
  cases dtype <;> nofun

/-! ## Type rules -/

/-- Views of any tensor, also of one with other strides than axes. -/
theorem Reindex.lapses_output {view : Reindex} {t : TensorType} (h : loose) :
    Lapses loose (view.output t) := by
  have hget : ∀ {α : Type} {xs : List α} {i : Nat}, Lapses loose (Checked.get xs i) :=
    Checked.lapses_get h
  have hset : ∀ {α : Type} {xs : List α} {i : Nat} {x : α}, Lapses loose (Checked.set xs i x) :=
    Checked.lapses_set h
  have hinsert : ∀ {α : Type} {xs : List α} {i : Nat} {x : α},
      Lapses loose (Checked.insert xs i x) := Checked.lapses_insert h
  have herase : ∀ {α : Type} {xs : List α} {i : Nat}, Lapses loose (Checked.erase xs i) :=
    Checked.lapses_erase h
  have hloop : ∀ {ε α β : Type} [Faulting ε] {xs : List α} {f : β → α → Except ε β} {b : β},
      (∀ b x, Lapses loose (f b x)) → Lapses loose (xs.foldlM f b) := fun hf =>
    faultsIn_foldlM (I := fun _ => True) (fun b _ x _ => hf b x) (fun _ _ => trivial) trivial
  cases view with
  | slice axes starts ends =>
    exact faultsIn_slice
  | transpose axes =>
    simp [output, transposeOutput, Strides.permute, faultsIn_mapM, hget]
  | broadcast axis target =>
    have hplace : ∀ {ss}, Lapses loose (placeStrides (zeroStrides target) axis ss) :=
      hloop fun _ _ => by simp [hset]
    simp [output, broadcastOutput, fits, faultsIn_allM, hget, hplace]
  | multibroadcast target =>
    simp [output, multibroadcastOutput, broadcastStride, faultsIn_mapM, hget]
  | contiguous => simp [output]
  | reshape target => simp [output, reshapeOutput, Shape.numel]
  | squeeze axes => exact hloop fun _ _ => by simp [dropAxis, hget, herase]
  | unsqueeze axes => exact hloop fun _ _ => by simp [insertAxis, hget, hinsert]
  | flatten axis => simp [output, flattenOutput]

namespace Op

variable {op : Op} {inputs : List ValueType} {modules : List Signature}

/-- **Type rules have no fault but lapses**, and without loose operands they only overflow. -/
theorem lapses_inferType (h : loose ∨ ∀ a ∈ inputs, a.Ranked) :
    Lapses loose (op.inferType inputs modules) := by
  by_cases hview : loose ∧ ∃ v, op = .reindex v
  · obtain ⟨hloose, v, rfl⟩ := hview
    exact (delivers_mapTensor (Q := fun _ => True) fun t _ =>
      ⟨Reindex.lapses_output hloose, fun _ _ => trivial⟩).faults
  · have hdelivers := Arithmetic.machine.delivers_inferType modules op fun v hv =>
      h.resolve_left fun hloose => hview ⟨hloose, v, hv⟩
    rw [Arithmetic.machine_inferType] at hdelivers
    exact hdelivers.faults.mono fun e he => .inl he.overflow

/-- What is inferred has a stride for each axis if all that it rests on does. -/
theorem ranked_of_inferType {a : ValueType} (hinputs : ∀ a ∈ inputs, a.Ranked)
    (hcarried : ∀ t ∈ op.carried, t.Ranked) (hmodules : ∀ s ∈ modules, ∀ t ∈ s.returns, t.Ranked)
    (hok : op.inferType inputs modules = .ok a) : a.Ranked := by
  have hdelivers := Arithmetic.machine.delivers_inferType modules op fun _ _ => hinputs
  rw [Arithmetic.machine_inferType] at hdelivers
  exact hdelivers.result a hok hinputs hcarried hmodules

theorem inputs_ne_nil_of_reindex {v : Reindex} {a : ValueType}
    (hok : (reindex v).inferType inputs modules = .ok a) : inputs ≠ [] := by
  rintro rfl
  cases hok

end Op

/-! ## Programs -/

namespace Program

variable {p : Program} {i : InstrId} {m : ModuleId} {op : Op} {inputs : List InstrId}
  {modules : List ModuleId} {P : Fault → Prop}

/-! ### Looking up -/

theorem faultsIn_instr (h : P .deadHandle ∨ (p.instr? i).isSome) : FaultsIn P (p.instr i) := by
  unfold instr
  cases hi : p.instr? i <;> simp_all

theorem faultsIn_module (h : P .deadHandle ∨ (p.module? m).isSome) : FaultsIn P (p.module m) := by
  unfold Program.module
  cases hm : p.module? m <;> simp_all

@[simp] theorem faultsIn_findInstr : FaultsIn P (p.findInstr i) := by
  unfold findInstr
  split <;> simp

@[simp] theorem faultsIn_findModule : FaultsIn P (p.findModule m) := by
  unfold findModule
  split <;> simp

@[simp] theorem faultsIn_locate : FaultsIn P (p.locate i) := by
  unfold locate
  refine faultsIn_bind.mpr ⟨by simp, fun _ _ => faultsIn_bind.mpr ⟨by simp, fun _ _ => ?_⟩⟩
  split <;> simp

theorem faultsIn_tensorOf (h : P .deadHandle ∨ (p.instr? i).isSome) :
    FaultsIn P (p.tensorOf i) := by
  simp [tensorOf, faultsIn_instr h]

/-! ### Types -/

/-- The types of the program have a stride for each axis. -/
def Ranked (p : Program) : Prop := ∀ i type, p.HasType i type → type.Ranked

namespace Ranked

variable (h : p.Ranked)

include h

theorem signature {s : Signature} {t : TensorType} (hs : p.signature m = .ok s)
    (ht : t ∈ s.returns) : t.Ranked := by
  obtain ⟨module, -, -, hreturns⟩ := signature_ok.mp hs
  unfold returnTypes at hreturns
  split at hreturns
  · rw [← Except.ok.inj hreturns] at ht
    cases ht
  · next last _ =>
    simp only [Outcome.bind_ok, Outcome.lift_checked_ok, instr_ok, Outcome.ite_ok,
      Outcome.pure_ok, Outcome.mapM_ok, tensorOf_ok] at hreturns
    obtain ⟨inst, hi, ⟨-, htypes⟩ | ⟨-, he⟩⟩ := hreturns
    · obtain ⟨x, -, hx⟩ := forall₂_exists htypes.flip ht
      exact ValueType.ranked_tensor.mp (h x _ hx)
    · exact h last inst.type ⟨inst, hi, rfl⟩ t (he ▸ ht)

theorem infer {type : ValueType} (hcarried : ∀ t ∈ op.carried, t.Ranked)
    (hok : p.infer op inputs modules = .ok type) : type.Ranked := by
  obtain ⟨types, signatures, htypes, hsigs, hok⟩ := infer_ok.mp hok
  refine Op.ranked_of_inferType (fun a ha => ?_) hcarried (fun s hs t ht => ?_) hok
  · obtain ⟨x, -, hx⟩ := forall₂_exists htypes.flip ha
    exact h x a hx
  · obtain ⟨k, -, hk⟩ := forall₂_exists hsigs.flip hs
    exact h.signature hk ht

end Ranked

theorem Linked.alive_of_mem (hl : p.Linked) (hi : i ∈ p.body m) : (p.instr? i).isSome := by
  obtain ⟨inst, hinst, -⟩ := hl.owned hi
  rw [hinst]
  rfl

theorem Linked.alive_of_input {inst : Instruction} {x : InstrId} (hl : p.Linked)
    (hi : p.instr? i = some inst) (hx : x ∈ inst.inputs) : (p.instr? x).isSome := by
  obtain ⟨_, hx, -⟩ := hl.operand hi hx
  exact Option.isSome_iff_exists.mpr ⟨_, hx⟩

theorem Linked.alive_of_consumer {inst : Instruction} {c : InstrId} (hl : p.Linked)
    (hi : p.instr? i = some inst) (hc : c ∈ inst.consumers) : (p.instr? c).isSome := by
  obtain ⟨_, hc, -⟩ := hl.consumer hi hc
  exact Option.isSome_iff_exists.mpr ⟨_, hc⟩

theorem faultsIn_signature (h : P .deadHandle ∨ p.Linked) : FaultsIn P (p.signature m) := by
  have halive : ∀ {i}, i ∈ p.body m → P .deadHandle ∨ (p.instr? i).isSome := fun hi =>
    h.imp_right fun hl => hl.alive_of_mem hi
  refine faultsIn_bind.mpr ⟨faultsIn_findModule, fun module hm => ?_⟩
  refine faultsIn_bind.mpr ⟨faultsIn_mapM fun i hi => ?_, fun _ _ => ?_⟩
  · exact faultsIn_tensorOf (halive (List.mem_of_mem_filter hi))
  refine faultsIn_bind.mpr ⟨?_, fun _ _ => faultsIn_pure⟩
  unfold returnTypes
  split
  · exact faultsIn_pure
  · next last hlast =>
    rw [← body_of_module? (findModule_ok.mp hm)] at hlast
    have hlast := faultsIn_instr (halive (List.mem_of_getLast? hlast))
    refine faultsIn_bind.mpr ⟨faultsIn_lift_checked.mpr hlast, fun inst hi => ?_⟩
    rw [Outcome.lift_checked_ok, instr_ok] at hi
    refine faultsIn_ite.mpr ⟨fun _ => faultsIn_mapM fun x hx => ?_, fun _ => faultsIn_pure⟩
    exact faultsIn_tensorOf (h.imp_right fun hl => hl.alive_of_input hi hx)

theorem faultsIn_infer (hlinked : P .deadHandle ∨ p.Linked) (htypes : loose ∨ p.Ranked)
    (hP : ∀ e : Fault, e.Lapse loose → P e) : FaultsIn P (p.infer op inputs modules) := by
  refine faultsIn_bind.mpr ⟨faultsIn_mapM fun x _ => by simp [typeOf], fun types htypes' => ?_⟩
  refine faultsIn_bind.mpr ⟨faultsIn_mapM fun k _ => faultsIn_signature hlinked, fun sigs _ => ?_⟩
  have hranked : loose ∨ ∀ a ∈ types, a.Ranked := htypes.imp_right fun h a ha => by
    obtain ⟨x, -, hx⟩ := forall₂_exists (Outcome.mapM_ok.mp htypes').flip ha
    exact h x a (typeOf_ok.mp hx)
  exact faultsIn_lift_typed.mpr ((Op.lapses_inferType hranked).mono hP)

/-- Inference is no iteration that could go past a bound. -/
theorem infer_ne_exhausted : p.infer op inputs modules ≠ .error (.fault .exhausted) := by
  have hlapse : ∀ e : Fault, e.Lapse True → e ≠ .exhausted := by
    rintro _ (rfl | ⟨-, rfl⟩) <;> nofun
  exact fun he => faultsIn_infer (.inl nofun) (.inl trivial) hlapse _ he rfl

namespace Linked

variable (hl : p.Linked)

include hl

theorem lapses_infer (h : loose ∨ p.Ranked) : Lapses loose (p.infer op inputs modules) :=
  faultsIn_infer (.inr hl) h fun _ => id

/-- **The verification of a linked program has no fault but lapses.** -/
theorem lapses_verify (h : loose ∨ p.Ranked) :
    Lapses loose p.verify := by
  have hat : ∀ {m module earlier i index}, Lapses loose (p.verifyAt m module earlier i index) := by
    intro m module earlier i index
    unfold verifyAt
    split
    · next inst _ =>
      simp only [faultsIn_ite, faultsIn_bind, faultsIn_refuse, Outcome.refuse_ok, false_imp_iff,
        implies_true, true_and]
      intro _ _ _ _ _
      have hinfer : Lapses loose (p.infer inst.op inst.inputs inst.modules) := hl.lapses_infer h
      split
      · simp
      · simp
      · simp
      · next e he =>
        rw [he] at hinfer
        exact fun e' he' => hinfer e' (by cases he'; rfl)
    · simp
  have hfrom : ∀ {m module earlier rest}, Lapses loose (p.verifyFrom m module earlier rest) := by
    intro m module earlier rest
    induction rest generalizing earlier with
    | nil => exact faultsIn_pure
    | cons i rest ih => exact faultsIn_bind.mpr ⟨hat, fun _ _ => ih⟩
  refine faultsIn_bind.mpr ⟨faultsIn_forM fun _ _ => hfrom, fun _ _ => ?_⟩
  simp

end Linked

end Program

end OffloadFusion
