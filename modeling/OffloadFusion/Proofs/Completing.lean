import OffloadFusion.Proofs.Feeding
import OffloadFusion.Proofs.Names
import OffloadFusion.Proofs.Pruning
import OffloadFusion.Proofs.Rules

/-!
# Completed regions and their calls

An open region is ended (`Building.Open.completes_finish`), its feeders are made contiguous where a
call does not take them as they lie (`Edit.completes_contiguousFrom`), and so **a region can be
called in the place of its root** (`Fusing.completesIff_complete`,
`Callable.completes_replaceWith`).

* `Edit.completes_insertBefore`: an operation that types is inserted into the main module.
* `Edit.completes_replaceWith`: an instruction is rebuilt with its own type.
-/

namespace OffloadFusion

open OffloadFusion.Action Program

variable {p q r : Program} {S : Site} {names : List String} {w : Workspace} {i : InstrId}
  {inputs : List InstrId} {ts us : List TensorType} {m : ModuleId} {type : ValueType}

/-! ## The end of a region -/

theorem exists_between {α β γ δ : Type} {as : List α} {bs : List β} {A : β → γ → Prop}
    {B : γ → δ → Prop} {C : α → δ → Prop}
    (h : List.Forall₂ (fun a b => ∃ c d, A b c ∧ B c d ∧ C a d) as bs) :
    ∃ cs ds, List.Forall₂ A bs cs ∧ List.Forall₂ B cs ds ∧ List.Forall₂ C as ds := by
  induction h with
  | nil => exact ⟨[], [], .nil, .nil, .nil⟩
  | cons hab _ ih =>
    obtain ⟨c, d, hc, hd, ha⟩ := hab
    obtain ⟨cs, ds, hcs, hds, has⟩ := ih
    exact ⟨c :: cs, d :: ds, .cons hc hcs, .cons hd hds, .cons ha has⟩

/-- **An open region can be ended.** -/
theorem Building.Open.completes_finish (h : Open S names w) {returns : List InstrId}
    (hcount : (Interval.atLeast 1).contains returns.length)
    (ht : List.Forall₂ (w.program.Held S.module) returns (ts.map .tensor)) :
    (finish returns).Completes w fun feeders w' => Grown S.program S.module w'.program ∧
      feeders.length = names.length ∧ ∃ fs us, List.Forall₂ S.Feeds feeders fs ∧
        List.Forall₂ TensorType.Alike fs us ∧
          w'.program.signature S.module = .ok ⟨us, ts⟩ := by
  show ((do
    let _ ← Edit.addReturn w.region.module returns
    ((← theProgram).parameters w.region.module).mapM feederOf : Building _)).Completes w _
  rw [h.module, completes_bind, completes_edit]
  refine (h.unfinished.completes_addReturn hcount ht).mono ?_
  rintro _ r ⟨hgrown, hfills, hparams, hsig⟩
  rw [completes_theProgram_bind]
  have hread : ∀ i ∈ r.parameters S.module, ∃ outer,
      feederOf i ⟨r, w.region⟩ = .ok outer ⟨r, w.region⟩ ∧ ∃ t u, S.Feeds outer t ∧
        t.Alike u ∧ r.HasType i (.tensor u) := by
    intro i hi
    rw [hparams] at hi
    obtain ⟨outer, t, u, ho, hfeeds, hu, hheld⟩ := h.bound i hi
    refine ⟨outer, ?_, t, u, hfeeds, hu, (hfills.held hheld).2⟩
    rw [feederOf, Action.get_bind_ok, ho, Action.pure_ok]
    exact ⟨rfl, rfl⟩
  refine (completes_mapM_read hread).mono ?_
  rintro feeders w' ⟨he, hfeeders⟩
  subst he
  obtain ⟨fs, us, hfs, hus, htypes⟩ := exists_between hfeeders
  refine ⟨hgrown, ?_, fs, us, hfs, hus, hsig us (hparams ▸ htypes)⟩
  have hlen := hfeeders.length_eq
  have hnamed := h.named.length_eq
  rw [hparams] at hlen
  omega

/-! ## Operands that a call takes -/

/-- Only copies were added to the main module. -/
structure Padded (p q : Program) : Prop extends Advance p q where
  core : ∀ {j inst}, p.instr? j = some inst → SameCore p q j
  body : ∀ {k}, k ≠ main → q.body k = p.body k
  before : ∀ {a b}, Before (p.body main) a b → Before (q.body main) a b
  signature : ∀ {k s}, k ≠ main → p.signature k = .ok s → q.signature k = .ok s

namespace Padded

theorem refl (h : p.Steady (some main)) : Padded p p :=
  ⟨.refl h, fun _ => rfl, fun _ => rfl, id, fun _ => id⟩

theorem gone (h : Padded p q) (hi : q.instr? i = none) : p.instr? i = none := by
  by_contra hne
  obtain ⟨inst, hp⟩ := Option.ne_none_iff_exists'.mp hne
  obtain ⟨inst', hq, -⟩ := (h.core hp).symm.exists_instr hp
  rw [hi] at hq
  cases hq

theorem hasType (h : Padded p q) (ht : p.HasType i type) : q.HasType i type := by
  obtain ⟨inst, hi, rfl⟩ := ht
  exact (h.core hi).hasType ⟨inst, hi, rfl⟩

theorem trans (h : Padded p q) (h' : Padded q r) : Padded p r := by
  refine ⟨h.toAdvance.trans h'.toAdvance, fun {j inst} hj => ?_,
    fun hk => (h'.body hk).trans (h.body hk), fun hab => h'.before (h.before hab),
    fun hk hs => h'.signature hk (h.signature hk hs)⟩
  obtain ⟨inst', hq, -⟩ := (h.core hj).symm.exists_instr hj
  exact (h.core hj).trans (h'.core hq)

end Padded

/-- The instruction may feed the region, or is a new one that reads nothing else. -/
def Site.Supplies (S : Site) (q : Program) (i : InstrId) : Prop :=
  S.sources i ∨ (S.program.instr? i = none ∧ ∀ x, q.Uses i x → S.sources x)

/-- A tensor like `t` before the root that supplies the region, and that a call takes as it lies. -/
structure Taken (S : Site) (q : Program) (t : TensorType) (i : InstrId) : Prop where
  before : Before (q.body main) i S.root
  supplies : S.Supplies q i
  layout : ∃ u, q.HasType i (.tensor u) ∧ t.Alike u ∧ Op.acceptsLayout u = .ok true

theorem Taken.padded {t : TensorType} (h : Taken S q t i) (hq : Padded q r) : Taken S r t i := by
  obtain ⟨u, hu, hlike, haccepts⟩ := h.layout
  refine ⟨hq.before h.before, h.supplies.imp_right fun ⟨hnew, huses⟩ => ⟨hnew, fun x hx => ?_⟩,
    u, hq.hasType hu, hlike, haccepts⟩
  obtain ⟨inst, hi, -⟩ := hu
  exact huses x ((hq.core hi).symm.uses hx)

theorem mem_take_of_before {l : List InstrId} {a b : InstrId} {n : Nat} (h : Before l a b)
    (hn : l.Nodup) (hb : l.idxOf? b = some n) : a ∈ l.take n ∧ b ∈ l.drop n := by
  obtain ⟨l₁, l₂, rfl, ha⟩ := before_iff.mp h
  have hnot : b ∉ l₁ := fun hmem =>
    (List.nodup_append.mp hn).2.2 b hmem b List.mem_cons_self rfl
  rw [idxOf?_append_cons hnot, Option.some.injEq] at hb
  subst hb
  rw [List.take_left, List.drop_left]
  exact ⟨ha, List.mem_cons_self⟩

theorem before_insertIdx_after {l : List InstrId} {a b x : InstrId} {n : Nat} (h : Before l a b)
    (hn : l.Nodup) (ha : l.idxOf? a = some n) : Before (l.insertIdx (n + 1) x) x b := by
  obtain ⟨hlt, hget, -⟩ := List.idxOf?_eq_some_iff.mp ha
  obtain ⟨l₁, l₂, rfl, hmem⟩ := before_iff.mp h
  have hle : n + 1 ≤ l₁.length := by
    have hidx : (l₁ ++ b :: l₂).idxOf? a = some n := ha
    have htake := (exists_idxOf?_of_mem_take (x := a) (l := l₁ ++ b :: l₂) (n := l₁.length)
      (by rwa [List.take_left]))
    obtain ⟨k, hk, hklt⟩ := htake
    rw [ha, Option.some.injEq] at hk
    omega
  rw [insertIdx_eq_take_drop (by rw [List.length_append]; omega), List.drop_append_of_le_length hle]
  refine before_append.mpr (.inr (.inr ?_))
  exact before_iff.mpr ⟨x :: l₁.drop (n + 1), l₂, rfl, List.mem_cons_self⟩

/-- An instruction of the type was inserted into the main module. -/
structure Added (q : Program) (n : Nat) (inputs : List InstrId) (type : ValueType) (i : InstrId)
    (r : Program) : Prop extends Padded q r where
  gone : q.instr? i = none
  listed : r.body main = (q.body main).insertIdx n i
  reads : ∀ {x}, r.Uses i x → x ∈ inputs
  type : r.HasType i type

theorem Padded.of_insertAt {op : Op} {modules : List ModuleId} {n : Nat}
    (h : q.Steady (some main)) (hend : q.EndSafe main n op) (hglue : op.isGlue = true)
    (hmod : main ∉ modules) (hok : Edit.insertAt main n op inputs modules q = .ok i r) :
    Padded q r := by
  have hl := h.toLinked
  have hins := inserted_of_ok hl hok
  refine ⟨h.advance_insertAt hend hglue hmod hok, fun {j inst} hj => hins.old ?_,
    fun hk => hins.isLocal.body hk, fun hab => hins.body ▸ hab.insertIdx _ _,
    fun hk hs => hins.isLocal.signature hl hk hs⟩
  rintro rfl
  rw [hins.gone] at hj
  cases hj

/-- **Glue can be inserted into the main module.** -/
theorem Edit.completes_insertMain {op : Op} {modules : List ModuleId} {n : Nat}
    (h : q.Steady (some main)) (halive : (q.module? main).isSome) (hend : q.EndSafe main n op)
    (hglue : op.isGlue = true) (hmod : main ∉ modules)
    (hargs : ∀ x ∈ inputs, x ∈ (q.body main).take n)
    (hinfer : q.infer op inputs modules = .ok type) :
    (insertAt main n op inputs modules).Completes q (Added q n inputs type) := by
  obtain ⟨i, r, -, hok, hins, -, hheld⟩ :=
    h.toLinked.completes_insertAt halive hend.le hargs hinfer
  refine ⟨i, r, hok, .of_insertAt h hend hglue hmod hok, hins.gone, hins.body,
    fun {x} ⟨inst, hi, hx⟩ => ?_, hheld.2⟩
  obtain ⟨_, -, hnew⟩ := hins.new
  rw [hnew] at hi
  cases hi
  exact hx

theorem Edit.completes_insertBefore {op : Op} {modules : List ModuleId} {place : InstrId}
    (h : q.Steady (some main)) (hplace : place ∈ q.body main)
    (hglue : op.isGlue = true) (hmod : main ∉ modules)
    (hargs : ∀ x ∈ inputs, Before (q.body main) x place)
    (hinfer : q.infer op inputs modules = .ok type) :
    (insertBefore place op inputs modules).Completes q fun i r =>
      (∃ n, Added q n inputs type i r) ∧ Before (r.body main) i place := by
  have hl := h.toLinked
  obtain ⟨n, hloc, hidx⟩ := hl.exists_locate hplace
  have hret : op.isReturn = false := by
    have hop := Op.isBoundary_of_isGlue hglue
    simp only [Op.isBoundary, Bool.or_eq_false_iff] at hop
    exact hop.2
  have hend : q.EndSafe main n op := endSafe_before hloc hret
  obtain ⟨i, r, hok, hadded⟩ := completes_insertMain h (alive_of_mem_body hplace) hend hglue
    hmod (fun x hx => (mem_take_of_before (hargs x hx) (hl.nodup main) hidx).1) hinfer
  refine ⟨i, r, insertBefore_ok.mpr ⟨main, n, hloc, hok⟩, ⟨n, hadded⟩, ?_⟩
  obtain ⟨hlt, hget, -⟩ := List.idxOf?_eq_some_iff.mp hidx
  rw [hadded.listed, insertIdx_eq_take_drop hend.le, List.drop_eq_getElem_cons hlt, hget]
  refine before_append.mpr (.inr (.inr ?_))
  exact before_iff.mpr ⟨[i], _, rfl, List.mem_singleton_self i⟩

/-- A row-major copy right after an instruction that stands before the root. -/
theorem Edit.completes_copy {t : TensorType} (h : q.Steady (some main))
    (hold : ∀ j, q.instr? j = none → S.program.instr? j = none) (hsource : S.sources i)
    (hbefore : Before (q.body main) i S.root) (ht : q.HasType i (.tensor t)) (hsized : t.Sized) :
    (insertAfter i (.reindex .contiguous) [i] []).Completes q fun c r =>
      Padded q r ∧ Taken S r t c := by
  have hl := h.toLinked
  have hmem := hbefore.left_mem
  obtain ⟨n, hloc, hidx⟩ := hl.exists_locate hmem
  obtain ⟨u, hu⟩ := hsized.standard
  obtain ⟨k, hk⟩ := hsized.numel
  have hret := h.isReturn_of_before hbefore
  have hargs : ∀ x ∈ [i], x ∈ (q.body main).take (n + 1) := by
    intro x hx
    obtain rfl := List.mem_singleton.mp hx
    obtain ⟨hlt, hget, -⟩ := List.idxOf?_eq_some_iff.mp hidx
    exact List.mem_take_iff_getElem.mpr ⟨n, by omega, hget⟩
  have hout : Reindex.contiguous.output t = .ok u := Outcome.lift_checked_ok.mpr hu
  obtain ⟨c, r, hok, hadded⟩ := completes_insertMain h (alive_of_mem_body hmem)
    (endSafe_after hloc hret rfl) rfl List.not_mem_nil hargs
    (infer_of_held (m := main) (.cons ⟨hmem, ht⟩ .nil) (ReshapeChain.inferType_of_output hout))
  refine ⟨c, r, insertAfter_ok.mpr ⟨main, n, hloc, hret, hok⟩, hadded.toPadded, ?_,
    .inr ⟨hold c hadded.gone, fun x hx => ?_⟩, u, hadded.type, ?_, ?_⟩
  · rw [hadded.listed]
    exact before_insertIdx_after hbefore (hl.nodup main) hidx
  · rwa [List.mem_singleton.mp (hadded.reads hx)]
  · exact (TensorType.restrided_asStandard hu).alike
  · exact TensorType.acceptsLayout_standard hk hu

/-- **Operands before the root can be made such that a call takes them.** -/
theorem Edit.completes_contiguousFrom {copies : Renaming} (h : q.Steady (some main))
    (hold : ∀ j, q.instr? j = none → S.program.instr? j = none)
    (hin : List.Forall₂ (fun i t => S.sources i ∧ Before (q.body main) i S.root ∧
      q.HasType i (.tensor t)) inputs ts) (hsized : ∀ t ∈ ts, t.Sized)
    (hcopies : ∀ i c, copies.image? i = some c → ∃ t, q.HasType i (.tensor t) ∧ Taken S q t c) :
    (contiguousFrom inputs copies).Completes q fun result r =>
      Padded q r ∧ List.Forall₂ (Taken S r) ts result := by
  induction inputs generalizing q ts copies with
  | nil =>
    cases hin
    exact ⟨[], q, rfl, .refl h, .nil⟩
  | cons input inputs ih =>
    obtain ⟨t, ts, ⟨hsource, hbefore, ht⟩, hrest, rfl⟩ := List.forall₂_cons_left_iff.mp hin
    have hsized' := hsized t List.mem_cons_self
    have hsizedRest : ∀ t ∈ ts, t.Sized := fun t ht => hsized t (List.mem_cons_of_mem _ ht)
    rw [contiguousFrom]
    cases himage : copies.image? input with
    | some copy =>
      obtain ⟨t', ht', htaken⟩ := hcopies input copy himage
      cases hasType_unique ht ht'
      rw [completes_bind]
      refine (ih h hold hrest hsizedRest hcopies).mono ?_
      rintro result r ⟨hpadded, hresult⟩
      rw [completes_pure]
      exact ⟨hpadded, .cons (htaken.padded hpadded) hresult⟩
    | none =>
      obtain ⟨accepts, haccepts⟩ := hsized'.acceptsLayout
      rw [completes_get_bind, completes_bind]
      refine (completes_lift (tensorOf_ok.mpr ht)).mpr ?_
      rw [completes_bind]
      refine (completes_lift_checked haccepts).mpr ?_
      cases accepts with
      | true =>
        rw [if_pos rfl, completes_bind]
        refine (ih h hold hrest hsizedRest hcopies).mono ?_
        rintro result r ⟨hpadded, hresult⟩
        rw [completes_pure]
        have htaken : Taken S q t input := ⟨hbefore, .inl hsource, t, ht, .refl t, haccepts⟩
        exact ⟨hpadded, .cons (htaken.padded hpadded) hresult⟩
      | false =>
        rw [if_neg Bool.false_ne_true, completes_bind]
        refine (completes_copy h hold hsource hbefore ht hsized').mono ?_
        rintro copy r ⟨hpadded, htaken⟩
        rw [completes_bind]
        have htaken' : ∀ j c, (copies.insert input copy).image? j = some c →
            ∃ t, r.HasType j (.tensor t) ∧ Taken S r t c := by
          refine Renaming.related_insert
            (R := fun j c => ∃ t, r.HasType j (.tensor t) ∧ Taken S r t c)
            ⟨t, hpadded.hasType ht, htaken⟩ fun j c hj => ?_
          obtain ⟨t', ht', htaken'⟩ := hcopies j c hj
          exact ⟨t', hpadded.hasType ht', htaken'.padded hpadded⟩
        have hrest' : List.Forall₂ (fun i t => S.sources i ∧ Before (r.body main) i S.root ∧
            r.HasType i (.tensor t)) inputs ts := by
          refine hrest.imp ?_
          rintro i t ⟨hs, hb, ht⟩
          exact ⟨hs, hpadded.before hb, hpadded.hasType ht⟩
        refine (ih hpadded.steady (fun j hj => hold j (hpadded.gone hj)) hrest' hsizedRest
          htaken').mono ?_
        rintro result s ⟨hpadded', hresult⟩
        rw [completes_pure]
        exact ⟨hpadded.trans hpadded', .cons (htaken.padded hpadded') hresult⟩

/-! ## The call -/

/-- **A call types on operands that it takes.** -/
theorem infer_offload {anchor : Op} {outs : List TensorType}
    (hlen : (Interval.atLeast 2).contains inputs.length)
    (hin : List.Forall₂ (Taken S q) ts inputs)
    (hus : List.Forall₂ TensorType.Alike ts us)
    (hsig : q.signature m = .ok ⟨us, outs⟩) (hret : outs ≠ []) :
    q.infer (.offload anchor) inputs [m] = .ok (.ofElements outs) := by
  have hlike : List.Forall₂ (fun i t => ∃ u v, t.Alike u ∧ (u = v ∧
      Op.acceptsLayout u = .ok true) ∧ q.HasType i (.tensor v)) inputs ts := by
    refine hin.flip.imp fun i t ⟨_, _, u, hu, hlike, haccepts⟩ => ?_
    exact ⟨u, u, hlike, ⟨rfl, haccepts⟩, hu⟩
  obtain ⟨tensors, tensors', hlike, hsame, htypes⟩ := exists_between hlike
  have heq : List.Forall₂ Eq tensors tensors' := hsame.imp fun _ _ h => h.1
  rw [List.forall₂_eq_eq_eq] at heq
  subst heq
  have hlen' := htypes.length_eq
  refine infer_ok.mpr ⟨tensors.map .tensor, [⟨us, outs⟩],
    List.forall₂_map_right_iff.mpr htypes, .cons hsig .nil, ?_⟩
  simp only [Op.inferType, Outcome.bind_ok, Typing.tensorInputs_ok, Typing.singleModule_ok]
  refine ⟨tensors, ⟨by rwa [List.length_map, ← hlen'], rfl⟩, _, rfl, ⟨⟩,
    Op.checkLayouts_ok.mpr fun t ht => ?_, ?_⟩
  · obtain ⟨u, -, -, haccepts⟩ := forall₂_exists hsame ht
    exact haccepts
  · refine Op.callOutput_ok.mpr ⟨?_, hret, rfl⟩
    refine forall₂_comp (fun {t s u} hts hsu => ?_) hlike.flip hus
    exact TensorType.sameShape_iff.mpr (TensorType.Alike.symm hts |>.trans hsu)

/-- The region of the site can be called on the operands in the place of the root, with a result of
the type. -/
structure Callable (S : Site) (type : ValueType) (inputs : List InstrId) (q : Program) : Prop where
  advance : Advance S.program q
  core : ∀ {j inst}, S.program.instr? j = some inst → SameCore S.program q j
  before : ∀ x ∈ inputs, Before (q.body main) x S.root
  supplies : ∀ x ∈ inputs, S.Supplies q x
  infer : ∀ anchor, q.infer (.offload anchor) inputs [S.module] = .ok type

/-- The region is open and its values can be returned. -/
structure Building.Returns (S : Site) (ts : List TensorType) (returns : List InstrId)
    (w : Workspace) : Prop where
  isOpen : ∃ names, Open S names w ∧ (Interval.atLeast 2).contains names.length
  count : (Interval.atLeast 1).contains returns.length
  held : List.Forall₂ (w.program.Held S.module) returns (ts.map .tensor)

namespace Fusing

variable {s : Session} {region : Region}

theorem completes_building {α : Type} {steps : Building α} {Q : α × Region → Session → Prop}
    (h : steps.Completes ⟨s.program, region⟩ fun a w =>
      Q (a, w.region) { s with program := w.program }) : (building region steps).Completes s Q := by
  refine completes_focus.mpr (completes_bind.mpr (h.mono fun a w hw => ?_))
  rw [completes_get_bind, completes_pure]
  exact hw

theorem completesIff_building {α : Type} {steps : Building α} {B : Prop}
    {Q : α × Region → Session → Prop}
    (h : steps.CompletesIff B ⟨s.program, region⟩ fun a w =>
      Q (a, w.region) { s with program := w.program }) :
    (building region steps).CompletesIff B s Q := by
  refine completesIff_focus.mpr (h.bind fun a w hw => ?_)
  rw [completes_get_bind, completes_pure]
  exact hw

/-- **A region whose steps end in values can be called in the place of its root.** -/
theorem completesIff_complete (hS : S.Sound) {steps : Building (List InstrId)} {B : Prop}
    (hsteps : steps.CompletesIff B ⟨s.program, region⟩ (Building.Returns S ts)) :
    (complete region steps).CompletesIff B s fun inputs t =>
      Callable S (.ofElements ts) inputs t.program := by
  refine (completesIff_building (Q := fun r t => Building.Returns S ts r.1 ⟨t.program, r.2⟩)
    hsteps).bind ?_
  rintro ⟨returns, region⟩ t ⟨⟨names, hopen, hnames⟩, hcount, hheld⟩
  rw [completes_bind]
  refine completes_building ((hopen.completes_finish hcount hheld).mono ?_)
  rintro feeders w' ⟨hgrown, hlen, fs, us, hfs, hus, hsig⟩
  rw [completes_edit]
  have hl := hS.valid.toLinked
  have hcore : ∀ {j inst}, S.program.instr? j = some inst → SameCore S.program w'.program j := by
    intro j inst hj
    obtain ⟨inst', hj', hc⟩ := hgrown.exists_instr hl hj
    rw [SameCore, hj, hj', Option.map_some, Option.map_some, hc]
  have hin : List.Forall₂ (fun i t => S.sources i ∧ Before (w'.program.body main) i S.root ∧
      w'.program.HasType i (.tensor t)) feeders fs := by
    refine hfs.imp ?_
    rintro i t ⟨hsource, inst, hi, ht⟩
    refine ⟨hsource, ?_, ?_⟩
    · exact hgrown.body_main.symm ▸ hS.before hsource
    · exact (hcore hi).hasType ⟨inst, hi, ht⟩
  have hold : ∀ j, w'.program.instr? j = none → S.program.instr? j = none := by
    intro j hj
    by_contra hne
    obtain ⟨inst, hp⟩ := Option.ne_none_iff_exists'.mp hne
    obtain ⟨inst', hq, -⟩ := hgrown.exists_instr hl hp
    rw [hj] at hq
    cases hq
  have hsized : ∀ t ∈ fs, t.Sized := fun t ht => by
    obtain ⟨i, -, hfeeds⟩ := forall₂_exists hfs.flip ht
    exact hS.sized.tensor hfeeds.2
  refine (Edit.completes_contiguousFrom hgrown.steady hold hin hsized
    fun i c hc => by cases hc).mono ?_
  rintro inputs q ⟨hpadded, htaken⟩
  have hlen' := htaken.length_eq
  have hfslen := hfs.length_eq
  have houts : ts ≠ [] := by
    rintro rfl
    rw [List.map_nil, List.forall₂_nil_right_iff] at hheld
    rw [hheld] at hcount
    cases hcount
  have hmember : ∀ x ∈ inputs, ∃ t, Taken S q t x := fun x hx => by
    obtain ⟨t, -, htaken⟩ := forall₂_exists htaken.flip hx
    exact ⟨t, htaken⟩
  refine ⟨(hgrown.advance hl).trans hpadded.toAdvance, fun {j inst} hj => ?_, fun x hx => ?_,
    fun x hx => ?_, fun anchor => ?_⟩
  · obtain ⟨inst', hj', -⟩ := (hcore hj).symm.exists_instr hj
    exact (hcore hj).trans (hpadded.core hj')
  · obtain ⟨t, htaken⟩ := hmember x hx
    exact htaken.before
  · obtain ⟨t, htaken⟩ := hmember x hx
    exact htaken.supplies
  · refine infer_offload ?_ htaken hus (hpadded.signature hgrown.inner hsig) houts
    rw [← hlen', ← hfslen, hlen]
    exact hnames

end Fusing

/-- **An instruction can be rebuilt with its own type**, and keeps that and its consumers. -/
theorem Edit.completes_rebuild {op : Op} {modules : List ModuleId} {old : Instruction}
    (hl : q.Linked) (hi : i ∈ q.body main) (hold : q.instr? i = some old)
    (hargs : ∀ x ∈ inputs, Before (q.body main) x i)
    (hinfer : q.infer op inputs modules = .ok old.type) :
    (replaceWith i op inputs modules).Completes q fun _ r =>
      r.instr? i = some { old with op, inputs, modules } ∧
        (∀ k, r.body k = q.body k) ∧ ∀ {j}, j ≠ i → SameCore q r j := by
  obtain ⟨n, hloc, hidx⟩ := hl.exists_locate hi
  have hself : i ∉ inputs := fun hmem => (hargs i hmem).ne (hl.nodup main) rfl
  have hself' : i ∉ old.inputs := fun hmem => hl.operand_ne hold hmem rfl
  have hplace : checkPlacement main n op.name inputs q = .ok ⟨⟩ q :=
    checkPlacement_of_mem hl (alive_of_mem_body hi) fun x hx =>
      (mem_take_of_before (hargs x hx) (hl.nodup main) hidx).1
  have hok : replaceWith i op inputs modules q =
      .ok ⟨⟩ (q.rebuilt i old.inputs op inputs modules old.type) :=
    replaceWith_ok.mpr ⟨main, n, old, old.type, hloc, hplace, hinfer, hold,
      ValueType.sameShape_iff.mpr (.refl _), fun _ => rfl, fun hne => absurd rfl hne⟩
  refine ⟨⟨⟩, _, hok, ?_, body_rebuilt old.inputs,
    fun hj => sameCore_rebuilt hold hself hself' hj⟩
  rw [instr?_rebuilt hold hself hself', hold, Option.map_some, if_pos rfl, Instruction.reconsume,
    if_neg hself', if_neg hself]

theorem Edit.completes_replaceWith {op : Op} {modules : List ModuleId} (hl : q.Linked)
    (hi : i ∈ q.body main) (ht : q.HasType i type)
    (hargs : ∀ x ∈ inputs, Before (q.body main) x i)
    (hinfer : q.infer op inputs modules = .ok type) :
    (replaceWith i op inputs modules).Completes q fun _ r => r.body main = q.body main ∧
      (∀ {j}, j ≠ i → SameCore q r j) ∧ ∀ {x}, r.Uses i x → x ∈ inputs := by
  obtain ⟨old, hold, rfl⟩ := ht
  refine (completes_rebuild hl hi hold hargs hinfer).mono fun _ r ⟨hr, hbody, hcore⟩ =>
    ⟨hbody main, hcore, fun {x} ⟨inst, hinst, hx⟩ => ?_⟩
  cases hr.symm.trans hinst
  exact hx

/-- **A call can take the place of a root of its type.** -/
theorem Callable.completes_replaceWith {inst : Instruction} (h : Callable S inst.type inputs q)
    (hS : S.Sound) (hroot : S.root ∈ S.program.body main)
    (hinst : S.program.instr? S.root = some inst) (hinner : inst.op.isBoundary = false)
    (hm : main ≠ S.module) (anchor : Op) :
    (Edit.replaceWith S.root (.offload anchor) inputs [S.module]).Completes q fun _ r =>
      Advance S.program r := by
  have hl := hS.valid.toLinked
  obtain ⟨_, r, hok, -⟩ := Edit.completes_replaceWith h.advance.steady.toLinked
    (h.advance.mem_body hl hroot) ((h.core hinst).hasType ⟨inst, hinst, rfl⟩) h.before
    (h.infer anchor)
  have hglued := h.advance.replaceWith hl hroot hinst hinner rfl
    (fun hmem => hm (List.mem_singleton.mp hmem)) hok
  exact ⟨⟨⟩, r, hok, h.advance.trans hglued.toAdvance⟩

/-! ## New regions -/

theorem Building.Open.opened (hp : S.program.Valid)
    (hroot : S.root ∈ S.program.body main) (hm : S.module = S.program.nextModule) (name : String) :
    Open S [] ⟨S.program.opened name, .onModule S.module⟩ := by
  have hbody : (S.program.opened name).body S.module = [] := by
    rw [hm, body_opened, body, module?_nextModule]
    rfl
  have hparams : (S.program.opened name).parameters S.module = [] := by
    rw [parameters, hbody, List.filter_nil]
  refine ⟨rfl, ⟨hm ▸ .opened (hp.steady _) hroot name, ?_⟩, ?_, fun i hi => ?_,
    fun i value hi => ?_, fun i _ hi => ?_⟩
  · rw [return?, hbody]
    rfl
  · rw [hparams]
    exact .nil
  · rw [hparams] at hi
    cases hi
  · cases hi
  · cases hi

namespace Fusing

variable {s : Session}

/-- **A numbered name is free** before there are more numbers than modules. -/
theorem exists_freeNumber (h : p.Indexed) (stem : String) (start : Nat) :
    ∃ n ≤ p.modules.count, (List.range (p.modules.count + 1)).find? (fun n =>
      (p.moduleNamed? (stem ++ toString (start + n))).isNone) = some n := by
  have htaken : ∀ name, name ∉ (p.modules.entries.map fun e => e.2.name) →
      p.moduleNamed? name = none := by
    intro name hname
    by_contra hne
    obtain ⟨m, hm⟩ := Option.ne_none_iff_exists'.mp hne
    obtain ⟨module, hmod, rfl⟩ := (h name m).mp hm
    exact hname (List.mem_map.mpr ⟨(m.index, module), Arena.mem_entries.mpr hmod, rfl⟩)
  have hcount : (p.modules.entries.map fun e => e.2.name).length < p.modules.count + 1 := by
    rw [List.length_map]
    exact Nat.lt_succ_self _
  obtain ⟨n, hlt, hfree⟩ := exists_free stem start hcount
  cases hfind : (List.range (p.modules.count + 1)).find? fun n =>
      (p.moduleNamed? (stem ++ toString (start + n))).isNone with
  | none =>
    refine absurd (List.find?_eq_none.mp hfind n (List.mem_range.mpr hlt)) ?_
    rw [htaken _ hfree]
    decide
  | some k =>
    exact ⟨k, Nat.le_of_lt_succ (List.mem_range.mp (List.mem_of_find?_eq_some hfind)), rfl⟩

/-- A numbered name is found while the counter has room for the numbers of all modules. -/
theorem completes_freshName (h : s.program.Indexed)
    (hcounter : s.counter + s.program.modules.count + 1 < Checked.sizeLimit) (stem : String) :
    (freshName stem).Completes s fun name t =>
      t.program = s.program ∧ s.program.moduleNamed? name = none := by
  obtain ⟨n, hn, hfind⟩ := exists_freeNumber h stem s.counter
  have hfree := List.find?_some hfind
  have hnext : Checked.add (s.counter + n) 1 = .ok (s.counter + n + 1) :=
    if_pos (by omega)
  rw [freshName, completes_get_bind]
  dsimp only
  rw [hfind]
  dsimp only
  rw [completes_bind, completes_lift_checked hnext, completes_bind, completes_set, completes_pure]
  exact ⟨rfl, Option.isNone_iff_eq_none.mp hfree⟩

theorem completes_uniqueName (h : s.program.Indexed)
    (hcounter : s.counter + s.program.modules.count + 1 < Checked.sizeLimit) (name : String) :
    (uniqueName name).Completes s fun name t =>
      t.program = s.program ∧ s.program.moduleNamed? name = none := by
  rw [uniqueName, completes_theProgram_bind]
  split
  · exact completes_freshName h hcounter _
  · next hnone =>
    rw [completes_pure]
    exact ⟨rfl, Option.not_isSome_iff_eq_none.mp hnone⟩

theorem completes_createModule {name : String} (hs : s.program = p)
    (hnone : p.moduleNamed? name = none) :
    (liftM (Edit.createModule name) : Fusing ModuleId).Completes s fun m t =>
      m = p.nextModule ∧ t.program = p.opened name := by
  subst hs
  exact completes_edit.mpr ⟨_, _, Edit.createModule_ok.mpr ⟨hnone, rfl, rfl⟩, rfl, rfl⟩

/-- **A region of a new module can be called in the place of the root.** -/
theorem completesIff_region {β : Type} {B : Prop} {name : Fusing String}
    {steps : ModuleId → Building (List InstrId)}
    {rest : ModuleId → List InstrId → Fusing β} {Q : β → Session → Prop}
    (site : ModuleId → Site) (ts : List TensorType)
    (hsite : ∀ m, (site m).program = s.program ∧ (site m).module = m) (hS : ∀ m, (site m).Sound)
    (hroot : ∀ m, (site m).root ∈ s.program.body main)
    (hname : name.Completes s fun name t =>
      t.program = s.program ∧ s.program.moduleNamed? name = none)
    (hsteps : ∀ m w, Building.Open (site m) [] w →
      (steps m).CompletesIff B w (Building.Returns (site m) ts))
    (hrest : ∀ m inputs t, main ≠ m → Callable (site m) (.ofElements ts) inputs t.program →
      (rest m inputs).Completes t Q) :
    (do
      let name ← name
      let module ← Edit.createModule name
      let inputs ← complete (.onModule module) (steps module)
      rest module inputs : Fusing β).CompletesIff B s Q := by
  refine hname.bind_iff fun name t ⟨ht, hnone⟩ => ?_
  refine (completes_createModule ht hnone).bind_iff fun m t' ⟨hm, hq⟩ => ?_
  subst hm
  obtain ⟨hprogram, hmodule⟩ := hsite s.program.nextModule
  have hopen : Building.Open (site s.program.nextModule) []
      ⟨s.program.opened name, .onModule s.program.nextModule⟩ := by
    have hopen := Building.Open.opened (hS s.program.nextModule).valid
      (by rw [hprogram]; exact hroot _) (by rw [hprogram, hmodule]) name
    rwa [hprogram, hmodule] at hopen
  refine (completesIff_complete (hS _) (hsteps _ _ (hq ▸ hopen))).bind fun inputs t ht => ?_
  have hinner := hopen.unfinished.inner
  rw [hmodule] at hinner
  exact hrest _ inputs t hinner.symm ht

theorem completes_prune {roots : List InstrId} {rest : Fusing Bool} {Q : Bool → Session → Prop}
    (hp : p.Steady (some main)) (h : Advance p q) (ht : Trim (some main) q s.program)
    (hroots : ∀ i ∈ roots, i ∈ p.body main)
    (hrest : ∀ t : Session, Kept p t.program → rest.Completes t Q) :
    (do
      discard <| Edit.prune roots
      rest : Fusing Bool).Completes s Q := by
  have hin := ht.shrunk.inside (h.inside hp.toLinked hroots)
  rw [completes_bind, completes_discard, completes_edit]
  exact (ht.steady.completes_prune hin).mono
    fun _ r hr => hrest _ (h.kept hp (ht.trans hr))

/-- **A call takes the place of the root, and former operands are pruned.** -/
theorem completes_call {inst : Instruction} {anchor : Op} {roots : List InstrId}
    {rest : Fusing Bool} {Q : Bool → Session → Prop} (h : Callable S inst.type inputs s.program)
    (hS : S.Sound) (hroot : S.root ∈ S.program.body main)
    (hinst : S.program.instr? S.root = some inst) (hinner : inst.op.isBoundary = false)
    (hm : main ≠ S.module) (hroots : ∀ i ∈ roots, i ∈ S.program.body main)
    (hrest : ∀ t : Session, Kept S.program t.program → rest.Completes t Q) :
    (do
      Edit.replaceWith S.root (.offload anchor) inputs [S.module]
      discard <| Edit.prune roots
      rest : Fusing Bool).Completes s Q := by
  rw [completes_bind, completes_edit]
  exact (h.completes_replaceWith hS hroot hinst hinner hm anchor).mono fun _ q hq =>
    completes_prune (hS.valid.steady _) hq (.refl hq.steady) hroots hrest

theorem completes_release {body : ModuleId} {rest : Fusing Bool} {Q : Bool → Session → Prop}
    (h : Kept p s.program) (hrest : ∀ t : Session, Kept p t.program → rest.Completes t Q) :
    (do
      Edit.releaseModule body
      rest : Fusing Bool).Completes s Q := by
  rw [completes_bind, completes_edit]
  exact (h.steady.completes_releaseModule body).mono fun _ q hq =>
    hrest _ (h.trans (.of_trim hq h.steady.toLinked))

end Fusing

end OffloadFusion
