import OffloadFusion.Proofs.Readings
import OffloadFusion.Proofs.Rounds
import OffloadFusion.Rule.Basic

/-!
# Rules without faults

A replay, a region or a fusion is built step by step, and no step loses anything that an earlier one
has put into the program or read from it. So what a step looks up is there: `x.Builds loose k P`
says that `x` goes on from any state past the program `k` without a fault but lapses, with a result
in `P`.

**No rule has a fault but lapses** (`Rule.settles_apply`), whether it applies, declines or stops;
and the program stays fit.
-/

namespace OffloadFusion

open OffloadFusion.Action Program

variable {loose : Prop} {p q k : Program} {m region body : ModuleId} {i value : InstrId}
  {inputs args : List InstrId}

/-! ## Stages -/

/-- The instruction is in the program. -/
abbrev Present (i : InstrId) (p : Program) : Prop := (p.instr? i).isSome

/-- A state that holds a program, and handles of instructions beside it. -/
class Staged (σ : Type) [HoldsProgram σ] where
  Mentions : σ → InstrId → Prop
  program_withProgram (q : Program) (s : σ) :
    HoldsProgram.program (HoldsProgram.withProgram q s) = q
  mentions_withProgram {q : Program} {s : σ} {i : InstrId} :
    Mentions (HoldsProgram.withProgram q s) i → Mentions s i

/-- The instruction is an image. -/
def Renaming.Mentions (r : Renaming) (i : InstrId) : Prop := ∃ j, r.image? j = some i

theorem Renaming.Mentions.of_insert {r : Renaming} {j : InstrId}
    (h : (r.insert i value).Mentions j) : j = value ∨ r.Mentions j := by
  obtain ⟨x, hx⟩ := h
  rw [image?_insert] at hx
  split at hx
  · exact .inl (Option.some.inj hx).symm
  · exact .inr ⟨x, hx⟩

/-- The instruction is a value in the region, or feeds it. -/
def Region.Mentions (region : Region) (i : InstrId) : Prop :=
  region.values.Mentions i ∨ region.bindings.Mentions i

theorem Region.Mentions.of_know {region : Region} {j : InstrId}
    (h : (region.know i value).Mentions j) : j = value ∨ region.Mentions j :=
  h.elim (fun hv => hv.of_insert.imp_right .inl) fun hb => .inr (.inr hb)

theorem Region.Mentions.of_bindParam {region : Region} {param j : InstrId}
    (h : (region.bindParam param i).Mentions j) : j = i ∨ region.Mentions j :=
  h.elim (fun hv => .inr (.inl hv)) fun hb => hb.of_insert.imp_right .inr

instance : Staged Replay.Scope := ⟨fun s => s.values.Mentions, fun _ _ => rfl, id⟩

instance : Staged Workspace := ⟨fun w => w.region.Mentions, fun _ _ => rfl, id⟩

instance : Staged Session := ⟨fun _ _ => False, fun _ _ => rfl, id⟩

section

variable {σ : Type} [HoldsProgram σ] [Staged σ]

/-- Nothing was lost since the program `k`, and all that the state mentions is there. -/
structure Stage (loose : Prop) (k : Program) (s : σ) : Prop where
  onward : Onward loose k (HoldsProgram.program s)
  present : ∀ i, Staged.Mentions s i → Present i (HoldsProgram.program s)

namespace Stage

variable {s t : σ}

theorem fit (h : Stage loose k s) : (HoldsProgram.program s).Fit loose := h.onward.fit

theorem self (h : Stage loose k s) : Stage loose (HoldsProgram.program s) s :=
  ⟨.refl h.fit, h.present⟩

theorem past (h : Onward loose p k) (h' : Stage loose k s) : Stage loose p s :=
  ⟨h.trans h'.onward, h'.present⟩

theorem withProgram (h : Stage loose k s) (hq : Onward loose (HoldsProgram.program s) q) :
    Stage loose k (HoldsProgram.withProgram q s) := by
  refine ⟨?_, fun i hi => ?_⟩
  all_goals rw [Staged.program_withProgram]
  · exact h.onward.trans hq
  · exact hq.alive (h.present i (Staged.mentions_withProgram hi))

end Stage

/-! ## Steps -/

namespace Action

omit [Staged σ] in
theorem settles_theProgram_bind {β : Type} {s : σ} {f : Program → Action σ FusionError β}
    {R : β → σ → Prop} :
    (theProgram >>= f).Settles loose s R ↔ (f (HoldsProgram.program s)).Settles loose s R := Iff.rfl

variable {α β : Type} {x : Action σ FusionError α} {f : α → Action σ FusionError β}
  {P : α → Program → Prop} {Q : β → Program → Prop} {R : σ → β → σ → Prop}

/-- The step has no fault but lapses past `k`, and ends in what `R` allows. -/
def Proceeds (loose : Prop) (k : Program) (x : Action σ FusionError α) (R : σ → α → σ → Prop) :
    Prop := ∀ s, Stage loose k s → x.Settles loose s (R s)

/-- Nothing was lost on the way from `s` to `t`, and the result is in `P`. -/
structure Built (loose : Prop) (P : α → Program → Prop) (s : σ) (a : α) (t : σ) : Prop where
  stage : Stage loose (HoldsProgram.program s) t
  result : P a (HoldsProgram.program t)

/-- The step has no fault but lapses past `k`; it loses nothing, and its result is in `P`. -/
abbrev Builds (loose : Prop) (k : Program) (x : Action σ FusionError α)
    (P : α → Program → Prop) : Prop := x.Proceeds loose k (Built loose P)

namespace Proceeds

theorem past {y : Action σ FusionError β} (h : y.Proceeds loose k R) (hq : Onward loose k q) :
    y.Proceeds loose q R := fun s hs => h s (hs.past hq)

theorem refuse (e : FusionError) : (Action.refuse e : Action σ FusionError β).Proceeds loose k R :=
  fun _ _ => nofun

theorem ite {c : Prop} [Decidable c] {y z : Action σ FusionError β}
    (hy : c → y.Proceeds loose k R) (hz : ¬ c → z.Proceeds loose k R) :
    (if c then y else z).Proceeds loose k R := by
  split
  · exact hy ‹_›
  · exact hz ‹_›

theorem lift_bind {o : Outcome FusionError α} (ho : Lapses loose o)
    (hf : ∀ a, o = .ok a → (f a).Proceeds loose k R) :
    ((liftM o : Action σ FusionError α) >>= f).Proceeds loose k R :=
  fun s hs => settles_lift_bind ho fun a ha => hf a ha s hs

theorem lift_checked_bind {o : Checked α} (ho : Lapses loose o)
    (hf : ∀ a, o = .ok a → (f a).Proceeds loose k R) :
    ((liftM o : Action σ FusionError α) >>= f).Proceeds loose k R :=
  fun s hs => settles_lift_checked_bind ho fun a ha => hf a ha s hs

theorem instr_bind {f : Instruction → Action σ FusionError β} (h : Present i p)
    (hf : ∀ inst, p.instr? i = some inst → (f inst).Proceeds loose k R) :
    ((liftM (p.instr i) : Action σ FusionError Instruction) >>= f).Proceeds loose k R :=
  fun s hs => settles_instr_bind h fun inst hi => hf inst hi s hs

theorem module_bind {f : Module → Action σ FusionError β} (h : (p.module? m).isSome)
    (hf : ∀ module, p.module? m = some module → (f module).Proceeds loose k R) :
    ((liftM (p.module m) : Action σ FusionError Module) >>= f).Proceeds loose k R :=
  .lift_checked_bind (faultsIn_module (.inr h)) fun _ hm => hf _ (module_ok.mp hm)

theorem lift_graph_bind {o : Outcome GraphError α} (ho : Lapses loose o)
    (hf : ∀ a, o = .ok a → (f a).Proceeds loose k R) :
    ((liftM o : Action σ FusionError α) >>= f).Proceeds loose k R := by
  refine fun s hs => settles_bind.mpr ?_
  cases o with
  | ok a => exact hf a rfl s hs
  | error e =>
    cases e with
    | refused reason => nofun
    | fault e =>
      rintro _ ⟨⟩
      exact ho e rfl

theorem tensorOf_bind {f : TensorType → Action σ FusionError β} (h : Present i p)
    (hf : ∀ type, (f type).Proceeds loose k R) :
    ((liftM (p.tensorOf i) : Action σ FusionError TensorType) >>= f).Proceeds loose k R :=
  .lift_graph_bind (faultsIn_tensorOf (.inr h)) fun type _ => hf type

theorem theProgram_bind {f : Program → Action σ FusionError β}
    (h : ∀ p, Onward loose k p → (f p).Proceeds loose p R) :
    (theProgram >>= f).Proceeds loose k R := fun s hs => h _ hs.onward s hs.self

theorem get_bind {f : σ → Action σ FusionError β}
    (h : ∀ s, Stage loose k s → (f s).Proceeds loose (HoldsProgram.program s) R) :
    ((get : Action σ FusionError σ) >>= f).Proceeds loose k R := fun s hs => h s hs s hs.self

/-! ### Building -/

theorem pure {a : α} (ha : ∀ q, Onward loose k q → P a q) :
    (Pure.pure a : Action σ FusionError α).Builds loose k P :=
  fun _ hs => ⟨hs.self, ha _ hs.onward⟩

/-- What a step builds is still there for the next one. -/
theorem bind (h : x.Builds loose k P)
    (hf : ∀ a q, Onward loose k q → P a q → (f a).Builds loose q Q) :
    (x >>= f).Builds loose k Q := by
  refine fun s hs => settles_bind.mpr ((h s hs).mono fun a t _ ⟨ht, ha⟩ => ?_)
  refine (hf a _ (hs.onward.trans ht.onward) ha t ht.self).mono fun b u _ ⟨hu, hb⟩ => ?_
  exact ⟨hu.past ht.onward, hb⟩

/-- What was built may be used up by what follows. -/
theorem close {C : β → σ → Prop} (h : x.Builds loose k P)
    (hf : ∀ a q, Onward loose k q → P a q → (f a).Proceeds loose q fun _ => C) :
    (x >>= f).Proceeds loose k fun _ => C :=
  fun s hs => settles_bind.mpr <| (h s hs).mono fun a t _ ⟨ht, ha⟩ =>
    hf a _ (hs.onward.trans ht.onward) ha t ht.self

theorem done (h : x.Builds loose k P) : x.Builds loose k fun _ _ => True :=
  fun s hs => (h s hs).mono fun _ _ _ ht => ⟨ht.stage, trivial⟩

theorem edit {e : Edit α}
    (h : ∀ p, Onward loose k p → e.Settles loose p fun a q => Onward loose p q ∧ P a q) :
    (liftM e : Action σ FusionError α).Builds loose k P := by
  refine fun s hs => Settles.focus ((h _ hs.onward).mono fun a q _ ⟨hq, ha⟩ => ?_)
  exact ⟨hs.self.withProgram hq, (Staged.program_withProgram q s).symm ▸ ha⟩

theorem forM {xs : List β} {g : β → Action σ FusionError PUnit}
    (h : ∀ b ∈ xs, (g b).Builds loose k fun _ _ => True) :
    (xs.forM g).Builds loose k fun _ _ => True := by
  induction xs generalizing k with
  | nil => exact .pure fun _ _ => trivial
  | cons b xs ih =>
    obtain ⟨hb, hxs⟩ := List.forall_mem_cons.mp h
    exact hb.bind fun _ q hq _ => ih fun c hc => (hxs c hc).past hq

theorem mapM {γ : Type} {xs : List β} {g : β → Action σ FusionError γ} {C : γ → Program → Prop}
    (hC : ∀ c p q, Onward loose p q → C c p → C c q) (h : ∀ b ∈ xs, (g b).Builds loose k C) :
    (xs.mapM g).Builds loose k fun cs q => ∀ c ∈ cs, C c q := by
  induction xs generalizing k with
  | nil => exact .pure fun _ _ => List.forall_mem_nil _
  | cons b xs ih =>
    obtain ⟨hb, hxs⟩ := List.forall_mem_cons.mp h
    rw [List.mapM_cons]
    refine hb.bind fun c q hq hc => (ih fun b hb => (hxs b hb).past hq).bind fun cs r hr hcs => ?_
    exact .pure fun s hs => List.forall_mem_cons.mpr
      ⟨hC c _ _ hs (hC c _ _ hr hc), fun c hc => hC c _ _ hs (hcs c hc)⟩

end Proceeds

end Action

end

/-! ## Replays -/

namespace Replay

theorem builds_know (h : Present value k) : (know i value).Builds loose k fun _ _ => True := by
  refine fun s hs => ⟨⟨.refl hs.fit, fun j hj => ?_⟩, trivial⟩
  obtain rfl | hj := Renaming.Mentions.of_insert hj
  · exact hs.onward.alive h
  · exact hs.present j hj

theorem builds_valueOf : (valueOf i).Builds loose k Present := by
  refine .get_bind fun s hs => ?_
  rw [← bind_pure (liftM _)]
  refine .lift_graph_bind Renaming.faultsIn_image fun value hvalue => .pure fun q hq => ?_
  exact hq.alive (hs.present value ⟨i, Renaming.image_ok.mp hvalue⟩)

theorem builds_locally {α : Type} {values : Renaming} {step : Replaying α}
    {P : α → Program → Prop} (h : step.Builds loose k P)
    (hvalues : ∀ j, values.Mentions j → Present j k) :
    (locally values step).Builds loose k P := by
  refine fun s hs => Settles.focus ?_
  refine (h.past hs.onward ⟨s.program, values⟩ ⟨.refl hs.fit, fun j hj => ?_⟩).mono
    fun a t _ ⟨ht, ha⟩ => ⟨⟨ht.onward, fun j hj => ?_⟩, ha⟩
  · exact hs.onward.alive (hvalues j hj)
  · exact ht.onward.alive (hs.present j hj)

theorem builds_unbound {α : Type} {P : α → Program → Prop} (h : Present i k) :
    (unbound i : Replaying α).Builds loose k P :=
  .theProgram_bind fun _ hp => .instr_bind (hp.alive h) fun _ _ => .refuse _

theorem builds_widen {dims : Shape} : (widen region dims i).Builds loose k Present :=
  .edit fun _ hp => Edit.settles_addInstruction hp.fit (Op.fit_of_carried rfl)

theorem builds_rehome {dims : Shape} (h : (k.module? body).isSome) :
    (rehome region body dims).Builds loose k fun _ _ => True := by
  refine .theProgram_bind fun p hp => .module_bind (hp.module h) fun module _ =>
    .forM fun e he => ?_
  obtain ⟨-, inst, hi, hop⟩ := mem_literals.mp he
  have ht : loose ∨ e.2.1.Ranked := (hp.fit.fit hi).op.imp_right fun hr =>
    hr _ (by rw [hop]; exact List.mem_singleton_self _)
  refine .bind (.edit fun _ hq => Edit.settles_addLiteral hq.fit ht) fun _ _ _ _ => ?_
  exact builds_widen.bind fun _ _ _ hwide => builds_know hwide

/-- What the emitter builds on operands that are there is there. -/
def Emit.Builds (loose : Prop) (emit : Emit) : Prop :=
  ∀ k inst args, inst.op.Fit loose → (∀ m ∈ inst.modules, (k.module? m).isSome) →
    (∀ i ∈ args, Present i k) → (emit inst args).Builds loose k Present

theorem builds_emitPlain : (emitPlain region).Builds loose := fun _ _ _ hop _ _ =>
  .edit fun _ hp => Edit.settles_addInstruction hp.fit hop

theorem builds_replayFrom {emit : Emit} (hemit : emit.Builds loose) {is : List InstrId}
    {returns : Option (List InstrId)} (his : ∀ i ∈ is, Present i k) :
    (replayFrom region emit is returns).Builds loose k fun _ _ => True := by
  induction is generalizing k returns with
  | nil => exact .pure fun _ _ => trivial
  | cons i is ih =>
    obtain ⟨hi, his⟩ := List.forall_mem_cons.mp his
    have hrest : ∀ {q returns}, Onward loose k q →
        (replayFrom region emit is returns).Builds loose q fun _ _ => True :=
      fun hq => ih fun j hj => hq.alive (his j hj)
    refine .get_bind fun s hs => .ite (fun _ => hrest hs.onward) fun _ => ?_
    refine .instr_bind (hs.onward.alive hi) fun inst hinst => ?_
    have hfit := (hs.fit.fit hinst).op
    split
    · exact hrest hs.onward
    · exact .refuse _
    · refine (Proceeds.mapM (C := Present) (fun _ _ _ hq => hq.alive) fun _ _ =>
        builds_valueOf).bind fun args q hq hargs => ?_
      have hknow : ∀ copy r, Onward loose q r → Present copy r → (do
          know i copy
          replayFrom region emit is returns).Builds loose r fun _ _ => True := by
        intro copy r hr hcopy
        exact (builds_know hcopy).bind fun _ t ht _ =>
          hrest (((hs.onward.trans hq).trans hr).trans ht)
      dsimp only
      split
      · next type data hop =>
        have ht : loose ∨ type.Ranked := hfit.imp_right fun hr =>
          hr _ (by rw [hop]; exact List.mem_singleton_self _)
        exact .bind (.edit fun _ hr => Edit.settles_addLiteral hr.fit ht) hknow
      · exact (hemit q inst args hfit (fun m hm => hq.module (hs.fit.carried hinst hm)) hargs).bind
          hknow

theorem builds_replayWith {emit : Emit} (hemit : emit.Builds loose)
    (h : (k.module? body).isSome) :
    (replayWith region emit body).Builds loose k fun is q => ∀ i ∈ is, Present i q := by
  refine .theProgram_bind fun p hp => .module_bind (hp.module h) fun module hm => ?_
  have hbody : ∀ i ∈ module.body, Present i p := fun i hi => by
    rw [← body_of_module? hm] at hi
    exact hp.fit.linked.alive_of_mem hi
  refine (builds_replayFrom hemit hbody).bind fun returns q hq _ => ?_
  cases returns with
  | some returns => exact .mapM (fun _ _ _ hq => hq.alive) fun _ _ => builds_valueOf
  | none =>
    refine .get_bind fun s hs => .pure fun r hr i hi => ?_
    obtain ⟨last, -, hlast⟩ := Option.bind_eq_some_iff.mp (Option.mem_toList.mp hi)
    exact hr.alive (hs.present i ⟨last, hlast⟩)

theorem builds_bindParams {params args : List InstrId} (hparams : ∀ i ∈ params, Present i k)
    (hargs : ∀ i ∈ args, Present i k) :
    (bindParams params args).Builds loose k fun _ _ => True := by
  induction params generalizing k args with
  | nil => exact .pure fun _ _ => trivial
  | cons param params ih =>
    obtain ⟨hparam, hparams⟩ := List.forall_mem_cons.mp hparams
    cases args with
    | nil => exact builds_unbound hparam
    | cons arg args =>
      obtain ⟨harg, hargs⟩ := List.forall_mem_cons.mp hargs
      exact (builds_know harg).bind fun _ q hq _ =>
        ih (fun i hi => hq.alive (hparams i hi)) fun i hi => hq.alive (hargs i hi)

theorem present_parameters (hp : p.Fit loose) : ∀ i ∈ p.parameters body, Present i p :=
  fun _ hi => hp.linked.alive_of_mem (List.mem_of_mem_filter hi)

theorem builds_inline {dims : Shape} (h : (k.module? body).isSome)
    (hargs : ∀ i ∈ args, Present i k) :
    (inline region body args dims).Builds loose k Present := by
  refine Proceeds.bind (P := fun is q => ∀ i ∈ is, Present i q)
    (builds_locally ?_ fun j ⟨_, hj⟩ => nomatch hj) fun values q hq hvalues => ?_
  · refine (builds_rehome h).bind fun _ q hq _ => .theProgram_bind fun r hr => ?_
    have hr' := hq.trans hr
    refine (builds_bindParams (present_parameters hr.fit) fun i hi =>
      hr'.alive (hargs i hi)).bind fun _ t ht _ => ?_
    exact builds_replayWith builds_emitPlain ((hr'.trans ht).module h)
  · cases values with
    | nil => exact .refuse _
    | cons value values => exact .pure fun r hr => hr.alive (hvalues value List.mem_cons_self)

theorem builds_emitInline : (emitInline region).Builds loose := by
  intro k inst args hop hmodules hargs
  unfold emitInline
  split
  · next body _ hbody =>
    exact .lift_graph_bind (by simp) fun _ _ =>
      builds_inline (hmodules body (hbody ▸ List.mem_singleton_self body)) hargs
  · exact .refuse _
  · exact builds_emitPlain k inst args hop hmodules hargs

theorem builds_shapeOf (h : Present i k) : (shapeOf i).Builds loose k fun _ _ => True :=
  .theProgram_bind fun _ hp => .tensorOf_bind (hp.alive h) fun _ => .pure fun _ _ => trivial

theorem builds_broadcastCommon (hargs : ∀ i ∈ args, Present i k) :
    (broadcastCommon region args).Builds loose k fun is q => ∀ i ∈ is, Present i q := by
  refine (Proceeds.mapM (C := fun _ _ => True) (fun _ _ _ _ => id) fun i hi =>
    builds_shapeOf (hargs i hi)).bind fun shapes q hq _ => ?_
  split
  · exact .refuse _
  · refine .mapM (fun _ _ _ hq => hq.alive) fun e he => .ite (fun _ => ?_) fun _ => builds_widen
    exact .pure fun r hr => (hq.trans hr).alive (hargs e.1 (List.of_mem_zip he).1)

theorem builds_emitter (mode : Mode) : (emitter region mode).Builds loose := by
  cases mode with
  | plain => exact builds_emitPlain
  | inlinePointwise => exact builds_emitInline
  | commonShape =>
    refine fun k inst args hop hmodules hargs => .ite (fun _ => ?_) fun _ =>
      builds_emitPlain k inst args hop hmodules hargs
    exact (builds_broadcastCommon hargs).bind fun wide q hq hwide =>
      builds_emitPlain q inst wide hop (fun m hm => hq.module (hmodules m hm)) hwide

theorem builds_replay {mode : Mode} (h : (k.module? body).isSome) :
    (replay region body mode).Builds loose k fun is q => ∀ i ∈ is, Present i q :=
  builds_replayWith (builds_emitter mode) h

end Replay

/-! ## Regions -/

namespace ReshapeChain

theorem settles_stack {ops : List Op} (hp : p.Fit loose) (hops : ∀ op ∈ ops, op.Fit loose)
    (hi : Present i p) :
    (stack m ops i).Settles loose p fun j q => Onward loose p q ∧ Present j q := by
  induction ops generalizing p i with
  | nil => exact ⟨.refl hp, hi⟩
  | cons op ops ih =>
    obtain ⟨hop, hops⟩ := List.forall_mem_cons.mp hops
    rw [stack, settles_bind]
    refine (Edit.settles_addInstruction hp hop).mono fun j q _ hadded => ?_
    obtain ⟨hq, hj⟩ := hadded
    exact (ih hq.fit hops hj).mono fun _ _ _ => .imp_left hq.trans

theorem Alive.settles_replay {chain : ReshapeChain} (h : chain.Alive loose k) (hp : p.Fit loose)
    (hi : Present i p) :
    (chain.replay m i).Settles loose p fun j q => Onward loose p q ∧ Present j q :=
  settles_stack hp (fun op hop => h.ops op (List.mem_reverse.mp hop)) hi

theorem walk_bind {σ β : Type} [HoldsProgram σ] [Staged σ] {throughSlice : Bool}
    {f : ReshapeChain → Action σ FusionError β} {R : σ → β → σ → Prop} (hp : p.Fit loose)
    (hi : Present i p) (hf : ∀ chain, chain.Alive loose p → (f chain).Proceeds loose k R) :
    ((liftM (walk p i throughSlice) : Action σ FusionError ReshapeChain) >>= f).Proceeds loose
      k R := by
  obtain ⟨chain, hwalk, halive⟩ := exists_walk throughSlice hp hi
  rw [hwalk]
  exact hf chain halive

end ReshapeChain

namespace Building

theorem module_bind {α : Type} {f : ModuleId → Building α} {R : Workspace → α → Workspace → Prop}
    (h : ∀ m, (f m).Proceeds loose k R) : (module >>= f).Proceeds loose k R :=
  fun w hw => h w.region.module w hw

theorem builds_know (h : Present value k) : (know i value).Builds loose k fun _ _ => True := by
  refine fun w hw => ⟨⟨.refl hw.fit, fun j hj => ?_⟩, trivial⟩
  obtain rfl | hj := Region.Mentions.of_know hj
  · exact hw.onward.alive h
  · exact hw.present j hj

theorem builds_replaying {α : Type} {step : Replay.Replaying α} {P : α → Program → Prop}
    (h : step.Builds loose k P) : (replaying step).Builds loose k P := by
  refine fun w hw => Settles.focus ?_
  refine (h ⟨w.program, w.region.values⟩ ⟨hw.onward, fun j hj => hw.present j (.inl hj)⟩).mono
    fun a s _ ⟨hs, ha⟩ => ⟨⟨hs.onward, fun j hj => ?_⟩, ha⟩
  exact hj.elim (hs.present j) fun hfeeds => hs.onward.alive (hw.present j (.inr hfeeds))

theorem builds_bindParam {param : InstrId} (h : Present i k) :
    (modify fun w => { w with region := w.region.bindParam param i } : Building PUnit).Builds loose
      k fun _ _ => True := by
  refine fun w hw => ⟨⟨.refl hw.fit, fun j hj => ?_⟩, trivial⟩
  obtain rfl | hj := Region.Mentions.of_bindParam hj
  · exact hw.onward.alive h
  · exact hw.present j hj

theorem builds_addNamedInput {name : String} (h : Present i k) :
    (addNamedInput i name).Builds loose k Present := by
  refine .theProgram_bind fun p hp => .tensorOf_bind (hp.alive h) fun type => module_bind fun m =>
    .lift_checked_bind TensorType.lapses_asStandard fun t ht => ?_
  refine Proceeds.bind (.edit fun q hq => Edit.settles_addParameter hq.fit (.inr ?_))
    fun param q hq hparam => ?_
  · exact TensorType.ranked_of_asStandard ht
  · exact (builds_bindParam ((hp.trans hq).alive h)).bind fun _ r hr _ =>
      .pure fun s hs => hs.alive (hr.alive hparam)

theorem builds_addInput (h : Present i k) : (addInput i).Builds loose k Present := by
  refine .theProgram_bind fun p hp => module_bind fun m => ?_
  obtain ⟨name, hname⟩ := exists_freeInputName p m
  rw [hname]
  refine .lift_checked_bind faultsIn_ok fun _ _ => ?_
  exact (builds_addNamedInput (hp.alive h)).bind fun param q hq hparam =>
    (builds_know hparam).bind fun _ r hr _ => .pure fun s hs => hs.alive (hr.alive hparam)

theorem builds_threadInputs {n : Nat} (h : ∀ i ∈ inputs, Present i k) :
    (threadInputs n inputs).Builds loose k fun is q => ∀ i ∈ is, Present i q := by
  induction inputs generalizing k n with
  | nil => exact .pure fun _ _ => List.forall_mem_nil _
  | cons input inputs ih =>
    obtain ⟨hinput, hinputs⟩ := List.forall_mem_cons.mp h
    refine .theProgram_bind fun p hp => ?_
    refine ReshapeChain.walk_bind hp.fit (hp.alive hinput) fun chain halive => ?_
    refine (builds_addNamedInput halive.upper).bind fun param q hq hparam => module_bind fun m => ?_
    refine Proceeds.bind (.edit fun r hr => halive.settles_replay hr.fit (hr.alive hparam))
      fun value r hr hvalue => ?_
    have hlater := (hp.trans hq).trans hr
    refine (ih fun i hi => hlater.alive (hinputs i hi)).bind fun values t ht hvalues => ?_
    exact .pure fun u hu => List.forall_mem_cons.mpr
      ⟨hu.alive (ht.alive hvalue), fun j hj => hu.alive (hvalues j hj)⟩

theorem builds_fuseAnchor {op : Op} (hop : op.Fit loose) (h : ∀ i ∈ inputs, Present i k) :
    (fuseAnchor op inputs).Builds loose k Present :=
  (builds_threadInputs h).bind fun _ _ _ _ => module_bind fun _ =>
    .edit fun _ hr => Edit.settles_addInstruction hr.fit hop

theorem builds_rehomeLiterals {dims : Shape} (h : (k.module? body).isSome) :
    (rehomeLiterals body dims).Builds loose k fun _ _ => True :=
  module_bind fun _ => builds_replaying (Replay.builds_rehome h)

theorem builds_bindParams {params : List InstrId} (h : ∀ i ∈ params, Present i k) :
    (bindParams params inputs).Builds loose k fun _ _ => True := by
  induction params generalizing k inputs with
  | nil => exact .pure fun _ _ => trivial
  | cons param params ih =>
    obtain ⟨hparam, hparams⟩ := List.forall_mem_cons.mp h
    cases inputs with
    | nil => exact builds_replaying (Replay.builds_unbound hparam)
    | cons input inputs =>
      refine (builds_replaying Replay.builds_valueOf).bind fun value q hq hvalue => ?_
      exact (builds_know hvalue).bind fun _ r hr _ =>
        ih fun i hi => (hq.trans hr).alive (hparams i hi)

theorem builds_fuse {mode : Replay.Mode} (hbody : (k.module? body).isSome)
    (h : ∀ i ∈ inputs, Present i k) :
    (fuse body inputs mode).Builds loose k fun is q => ∀ i ∈ is, Present i q := by
  refine Proceeds.bind (.forM fun i hi => ?_) fun _ q hq _ => .theProgram_bind fun r hr => ?_
  · refine .get_bind fun w hw => .ite (fun _ => ?_) fun _ => .pure fun _ _ => trivial
    exact (builds_addInput (hw.onward.alive (h i hi))).bind fun _ _ _ _ =>
      .pure fun _ _ => trivial
  · refine (builds_bindParams (Replay.present_parameters hr.fit)).bind fun _ t ht _ => ?_
    exact module_bind fun m => builds_replaying
      (Replay.builds_replay (((hq.trans hr).trans ht).module hbody))

theorem builds_feederOf (h : Present i k) : (feederOf i).Builds loose k Present := by
  refine .get_bind fun w hw => ?_
  split
  · next outer houter => exact .pure fun q hq => hq.alive (hw.present outer (.inr ⟨i, houter⟩))
  · exact builds_replaying (Replay.builds_unbound (hw.onward.alive h))

theorem builds_finish {returns : List InstrId} :
    (finish returns).Builds loose k fun is q => ∀ i ∈ is, Present i q := by
  refine module_bind fun m => Proceeds.bind (.edit fun q hq => Edit.settles_addReturn hq.fit)
    fun _ q hq _ => .theProgram_bind fun r hr => ?_
  exact .mapM (fun _ _ _ hq => hq.alive) fun i hi =>
    builds_feederOf (Replay.present_parameters hr.fit i hi)

end Building

theorem Edit.settles_contiguousFrom {copies : Renaming} (hp : p.Fit loose)
    (h : ∀ i ∈ inputs, Present i p) :
    (contiguousFrom inputs copies).Settles loose p fun _ q => Onward loose p q := by
  induction inputs generalizing p copies with
  | nil => exact .refl hp
  | cons input inputs ih =>
    obtain ⟨hinput, hinputs⟩ := List.forall_mem_cons.mp h
    have hrest : ∀ {q copies} {input : InstrId}, Onward loose p q → (do
        return input :: (← contiguousFrom inputs copies) : Edit (List InstrId)).Settles loose q
          fun _ r => Onward loose p r := fun hq => settles_bind.mpr <|
      (ih hq.fit fun i hi => hq.alive (hinputs i hi)).mono fun _ _ _ hr => hq.trans hr
    unfold contiguousFrom
    split
    · exact hrest (.refl hp)
    · rw [settles_get_bind]
      refine settles_lift_bind (faultsIn_tensorOf (.inr hinput)) fun type _ => ?_
      refine settles_bind.mpr (settles_lift_checked Op.lapses_acceptsLayout fun accepts _ => ?_)
      refine settles_ite (fun _ => hrest (.refl hp)) fun _ => settles_bind.mpr ?_
      exact (settles_insertAfter hp (Op.fit_of_carried rfl)).mono fun _ q _ hq => hrest hq.1

/-- The program of the session is fit. -/
def HoldsFit (loose : Prop) (s : Session) : Prop := s.program.Fit loose

/-- The step has no fault but lapses past `k`, and a fit program at its end. -/
abbrev Action.Closes {α : Type} (loose : Prop) (k : Program) (x : Fusing α) : Prop :=
  x.Proceeds loose k fun _ _ => HoldsFit loose

theorem Action.Closes.settles {α : Type} {x : Fusing α} {s : Session}
    (h : x.Closes loose s.program) (hp : s.program.Fit loose) :
    x.Settles loose s fun _ => HoldsFit loose := h s ⟨.refl hp, nofun⟩

namespace Fusing

theorem builds_building {α : Type} {region : Region} {steps : Building α}
    {P : α → Program → Prop} (h : steps.Builds loose k P)
    (hregion : ∀ i, region.Mentions i → Present i k) :
    (building region steps).Builds loose k fun r q =>
      P r.1 q ∧ ∀ i, r.2.Mentions i → Present i q := by
  refine fun s hs => Settles.focus (settles_bind.mpr ?_)
  refine (h ⟨s.program, region⟩ ⟨hs.onward, fun i hi => hs.onward.alive (hregion i hi)⟩).mono
    fun a w _ ⟨hw, ha⟩ => ?_
  exact ⟨⟨hw.onward, nofun⟩, ha, hw.present⟩

theorem builds_complete {region : Region} {steps : Building (List InstrId)}
    (h : steps.Builds loose k fun _ _ => True)
    (hregion : ∀ i, region.Mentions i → Present i k) :
    (complete region steps).Builds loose k fun _ _ => True := by
  refine (builds_building h hregion).bind fun r q hq ⟨_, hr⟩ => ?_
  refine (builds_building Building.builds_finish hr).bind fun r' t ht ⟨hfeeders, _⟩ => ?_
  exact .edit fun u hu => (Edit.settles_contiguousFrom hu.fit fun i hi =>
    hu.alive (hfeeders i hi)).mono fun _ _ _ hv => ⟨hv, trivial⟩

theorem settles_freshName {s : Session} {stem : String} (h : s.program.Indexed) :
    (freshName stem).Settles loose s fun _ t => t.program = s.program := by
  obtain ⟨n, -, hfind⟩ := exists_freeNumber h stem s.counter
  rw [freshName, settles_get_bind]
  dsimp only
  rw [hfind]
  exact settles_bind.mpr (settles_lift_checked Checked.lapses_add fun _ _ => rfl)

theorem settles_uniqueName {s : Session} {name : String} (h : s.program.Indexed) :
    (uniqueName name).Settles loose s fun _ t => t.program = s.program := by
  rw [uniqueName, settles_theProgram_bind]
  exact settles_ite (fun _ => settles_freshName h) fun _ => rfl

theorem builds_of_same {α : Type} {x : Fusing α}
    (h : ∀ s : Session, s.program.Indexed → x.Settles loose s fun _ t => t.program = s.program) :
    x.Builds loose k fun _ _ => True := by
  refine fun s hs => (h s hs.fit.indexed).mono fun _ t _ ht => ⟨⟨?_, nofun⟩, trivial⟩
  rw [show HoldsProgram.program t = HoldsProgram.program s from ht]
  exact .refl hs.fit

theorem builds_freshName {stem : String} : (freshName stem).Builds loose k fun _ _ => True :=
  builds_of_same fun _ => settles_freshName

theorem builds_uniqueName {name : String} : (uniqueName name).Builds loose k fun _ _ => True :=
  builds_of_same fun _ => settles_uniqueName

/-- What was put into the program goes into it for good. -/
theorem closes_edit {α β : Type} {e : Edit α} {f : α → Fusing β}
    (he : ∀ p, Onward loose k p → e.Settles loose p fun _ q => Onward loose p q)
    (hf : ∀ a q, Onward loose k q → (f a).Closes loose q) :
    ((liftM e : Fusing α) >>= f).Closes loose k := by
  refine .close (P := fun _ _ => True) (.edit fun p hp => ?_) fun a q hq _ => hf a q hq
  exact (he p hp).mono fun _ _ _ hq => ⟨hq, trivial⟩

theorem closes_region {name : Fusing String} {steps : ModuleId → Building (List InstrId)}
    {rest : ModuleId → List InstrId → Fusing Bool}
    (hname : name.Builds loose k fun _ _ => True)
    (hsteps : ∀ m q, Onward loose k q → (steps m).Builds loose q fun _ _ => True)
    (hrest : ∀ m inputs q, Onward loose k q → (rest m inputs).Closes loose q) :
    (do
      let name ← name
      let module ← Edit.createModule name
      let inputs ← complete (.onModule module) (steps module)
      rest module inputs : Fusing Bool).Closes loose k := by
  refine .close hname fun name q hq _ => closes_edit (fun p hp =>
    (Edit.settles_createModule hp.fit).mono fun _ _ _ => And.left) fun m r hr => ?_
  refine .close (builds_complete (hsteps m r (hq.trans hr)) ?_) fun inputs t ht _ =>
    hrest m inputs t ((hq.trans hr).trans ht)
  rintro i (⟨_, ⟨⟩⟩ | ⟨_, ⟨⟩⟩)

/-! ### The former operands -/

theorem settling_edit {α : Type} {e : Edit α}
    (h : ∀ p, p.Fit loose → e.Settles loose p fun _ q => q.Fit loose) :
    (liftM e : Fusing α).Settling loose (HoldsFit loose) (HoldsFit loose) :=
  fun s hs => Settles.focus (h s.program hs)

theorem settling_prune {roots : List InstrId} :
    (discard <| Edit.prune roots : Fusing Unit).Settling loose (HoldsFit loose)
      (HoldsFit loose) :=
  fun s hs => settles_discard.mpr (settling_edit (fun _ hp => Edit.settles_prune hp) s hs)

theorem settling_releaseModule :
    (liftM (Edit.releaseModule m) : Fusing Unit).Settling loose (HoldsFit loose)
      (HoldsFit loose) :=
  settling_edit fun _ hp => (Edit.settles_releaseModule hp m).mono fun _ _ _ => And.left

/-- The end of a rule: former operands are pruned and a body is released. -/
theorem settling_tidy {roots : List InstrId} {b : Bool} :
    (do
      discard <| Edit.prune roots
      Edit.releaseModule m
      return b : Fusing Bool).Settling loose (HoldsFit loose) (HoldsFit loose) :=
  settling_prune.bind fun _ => settling_releaseModule.bind fun _ => .pure _

theorem closes_pure {b : Bool} : (Pure.pure b : Fusing Bool).Closes loose k := fun _ hs => hs.fit

/-- The edit that puts the call in place, with what follows it. -/
theorem closes_last {e : Edit Unit} {rest : Fusing Bool}
    (he : ∀ p, Onward loose k p → e.Settles loose p fun _ q => q.Fit loose)
    (hrest : rest.Settling loose (HoldsFit loose) (HoldsFit loose)) :
    (do
      e
      rest : Fusing Bool).Closes loose k :=
  fun s hs => settles_bind.mpr <| Settles.focus <|
    (he s.program hs.onward).mono fun _ _ _ hq => hrest _ hq

theorem closes_call {op : Op} {modules : List ModuleId} {rest : Fusing Bool}
    (hop : op.Fit loose) (hrest : rest.Settling loose (HoldsFit loose) (HoldsFit loose)) :
    (do
      Edit.replaceWith i op inputs modules
      rest : Fusing Bool).Closes loose k :=
  closes_last (fun _ hp => (Edit.settles_replaceWith hp.fit hop).mono fun _ _ _ => Onward.fit) hrest

end Fusing

/-! ## Rules -/

variable {found : Match} {inst : Instruction}

theorem Match.lapses_get {name : String} : Lapses loose (found.get name) := by
  unfold get
  split <;> simp

open Fusing

theorem Standalone.closes_apply (h : Present found.root k) : (apply found).Closes loose k := by
  refine .theProgram_bind fun p hp => .instr_bind (hp.alive h) fun inst hi => ?_
  refine closes_region builds_freshName (fun m q hq => ?_) fun m inputs q hq => ?_
  · exact (Building.builds_fuseAnchor (hp.fit.fit hi).op fun x hx =>
      hq.alive (hp.fit.linked.alive_of_input hi hx)).bind fun _ _ _ _ => .pure fun _ _ => trivial
  · exact closes_call (Op.fit_of_carried rfl) (settling_prune.bind fun _ => .pure _)

namespace Attention

theorem builds_emit {op : Op} (hop : op.Fit loose) :
    (emit op inputs).Builds loose k Present :=
  Building.module_bind fun _ => .edit fun _ hp => Edit.settles_addInstruction hp.fit hop

theorem builds_applyMask {mask : List InstrId} (hi : Present i k)
    (h : ∀ x ∈ mask, Present x k) : (applyMask i mask).Builds loose k Present := by
  unfold applyMask
  split
  · exact (Building.builds_addNamedInput (h _ (by simp))).bind fun _ _ _ _ =>
      builds_emit (Op.fit_of_carried rfl)
  · refine (Building.builds_addNamedInput (h _ (by simp))).bind fun _ q hq _ => ?_
    exact (Building.builds_addNamedInput (hq.alive (h _ (by simp)))).bind fun _ _ _ _ =>
      builds_emit (Op.fit_of_carried rfl)
  · exact .pure fun _ hq => hq.alive hi

theorem ranked_of_scalar {dtype : DType} {value : Single} {type : TensorType} {data : LiteralData}
    (hok : LiteralData.scalar dtype value = .ok (type, data)) : type.Ranked := by
  cases dtype <;> cases hok <;> rfl

theorem builds_rebuildFrom {scale : Single} {a b v : InstrId} {mask : List InstrId}
    (h : ∀ x ∈ a :: b :: v :: mask, Present x k) :
    (rebuildFrom scale a b mask v).Builds loose k Present := by
  unfold rebuildFrom
  obtain ⟨ha, hrest⟩ := List.forall_mem_cons.mp h
  obtain ⟨hb, hrest⟩ := List.forall_mem_cons.mp hrest
  obtain ⟨hv, hmask⟩ := List.forall_mem_cons.mp hrest
  have hab : ∀ x ∈ [a, b], Present x k :=
    List.forall_mem_cons.mpr ⟨ha, List.forall_mem_singleton.mpr hb⟩
  have hplain : ∀ {q op inputs}, op.carried = [] → (emit op inputs).Builds loose q Present :=
    fun hop => builds_emit (Op.fit_of_carried hop)
  refine Building.module_bind fun m => ?_
  have hdot : (Op.dot false).Fit loose := Op.fit_of_carried rfl
  refine (Building.builds_fuseAnchor hdot hab).bind fun product q hq hproduct => ?_
  refine .theProgram_bind fun r hr => ?_
  refine .tensorOf_bind (hr.alive hproduct) fun scores => ?_
  refine .lift_graph_bind (by simp) fun (type, data) hscalar => ?_
  have hranked := ranked_of_scalar (Outcome.lift_typed_ok.mp hscalar)
  refine Proceeds.bind (.edit fun s hs => Edit.settles_addLiteral hs.fit (.inr hranked))
    fun factor s hs _ => ?_
  refine (hplain rfl).bind fun factor t ht _ => (hplain rfl).bind fun scaled u hu hscaled => ?_
  have hlater := ((((hq.trans hr).trans hs).trans ht).trans hu)
  refine (builds_applyMask hscaled fun x hx => hlater.alive (hmask x hx)).bind
    fun masked v' hv' _ => .lift_checked_bind Checked.lapses_sub fun axis _ => ?_
  refine (hplain rfl).bind fun weights w hw _ => .theProgram_bind fun z hz => ?_
  refine ReshapeChain.walk_bind hz.fit ((((hlater.trans hv').trans hw).trans hz).alive hv)
    fun chain halive => ?_
  refine (Building.builds_addNamedInput halive.upper).bind fun param y hy hparam => ?_
  exact Proceeds.bind (.edit fun x hx => halive.settles_replay hx.fit (hx.alive hparam))
    fun _ _ _ _ => hplain rfl

theorem builds_rebuild {scale : Single} (h : ∀ x ∈ inputs, Present x k) :
    (rebuild scale inputs).Builds loose k Present := by
  unfold rebuild
  split
  any_goals
    exact builds_rebuildFrom fun x hx => h x (by simpa [or_comm, or_left_comm] using hx)
  exact .refuse _

theorem Alone.closes_apply (h : Present found.root k) : (apply found).Closes loose k := by
  refine .theProgram_bind fun p hp => .instr_bind (hp.alive h) fun inst hi => ?_
  have hinputs : ∀ x ∈ inst.inputs, Present x p := fun x hx =>
    hp.fit.linked.alive_of_input hi hx
  split
  · refine closes_region builds_freshName (fun m q hq => ?_) fun m inputs q hq => ?_
    · exact (builds_rebuild fun x hx => hq.alive (hinputs x hx)).bind fun _ _ _ _ =>
        .pure fun _ _ => trivial
    · exact closes_call (Op.fit_of_carried rfl) (settling_prune.bind fun _ => .pure _)
  · exact closes_pure

theorem Fused.closes_apply (h : Present found.root k)
    (hgsg : ∀ x, found.get "gsg" = .ok x → Present x k) : (apply found).Closes loose k := by
  refine .lift_bind Match.lapses_get fun attention hget => .theProgram_bind fun p hp => ?_
  refine .instr_bind (hp.alive (hgsg _ hget)) fun inst hi => ?_
  have hinputs : ∀ x ∈ inst.inputs, Present x p := fun x hx =>
    hp.fit.linked.alive_of_input hi hx
  split
  · refine .instr_bind (hp.alive h) fun pwInst hpw => ?_
    split
    · next body hmodules =>
      have hbody : (p.module? body).isSome :=
        hp.fit.carried hpw (hmodules ▸ List.mem_singleton_self body)
      refine .tensorOf_bind (hp.alive h) fun type => .module_bind hbody fun _ _ => ?_
      refine closes_region builds_freshName (fun m q hq => ?_) fun m inputs q hq => ?_
      · refine (builds_rebuild fun x hx => hq.alive (hinputs x hx)).bind fun value r hr hvalue => ?_
        refine (Building.builds_rehomeLiterals ((hq.trans hr).module hbody)).bind fun _ s hs _ => ?_
        refine (Building.builds_know (hs.alive hvalue)).bind fun _ t ht _ => ?_
        have hlater := ((hq.trans hr).trans hs).trans ht
        exact (Building.builds_fuse (hlater.module hbody) fun x hx =>
          hlater.alive (hp.fit.linked.alive_of_input hpw hx)).done
      · exact closes_call (Op.fit_of_carried rfl) settling_tidy
    · exact closes_pure
  · exact closes_pure

end Attention

namespace AnchorPointwise

theorem lapses_anyShared {is : List InstrId} (h : ∀ i ∈ is, Present i p) :
    Lapses loose (anyShared p is) := by
  induction is with
  | nil => exact faultsIn_pure
  | cons i is ih =>
    obtain ⟨hi, his⟩ := List.forall_mem_cons.mp h
    refine faultsIn_bind.mpr ⟨faultsIn_instr (.inr hi), fun inst _ => ?_⟩
    exact faultsIn_ite.mpr ⟨fun _ => faultsIn_pure, fun _ => ih his⟩

theorem settles_splitCall {pw anchor : InstrId} {op : Op} (hp : p.Fit loose)
    (hanchor : anchor ∈ p.body main) (hpw : pw ∈ p.body main) :
    (splitCall pw anchor op inputs m).Settles loose p fun _ q => q.Fit loose := by
  have hremove : Settling loose (Onward loose p) (Fit loose) (Edit.removeInstruction anchor) :=
    fun q hq => (Edit.settles_removeInstruction hq.fit).mono fun _ _ _ => And.left
  have hsteps : Settling loose (Onward loose p) (Fit loose)
      (splitCall pw anchor op inputs m) :=
    (Edit.settling_insertBefore rfl).bind fun _ => (Edit.settling_replaceWith rfl).bind fun _ =>
      (Edit.settling_insertBefore rfl).bind fun _ =>
        (Edit.settling_relocateDependents hp.linked hanchor hpw).bind fun _ =>
          (Settling.onward fun _ hq => Edit.settles_replaceInstruction hq).bind fun _ => hremove
  exact hsteps p (.refl hp)

theorem closes_apply (hk : k.Linked) (hroot : found.root ∈ k.body main)
    (hx : ∀ x, found.get "x" = .ok x → Present x k)
    (hanchor : ∀ anchor, found.get "anchor" = .ok anchor → anchor ∈ k.body main) :
    (apply found).Closes loose k := by
  refine .lift_bind Match.lapses_get fun anchor hget => ?_
  refine .lift_bind Match.lapses_get fun x hgetx => ?_
  have hanchor := hanchor anchor hget
  refine .theProgram_bind fun p hp => ?_
  have halive := hp.alive (hk.alive_of_mem hroot)
  refine .instr_bind halive fun pwInst hpw => ?_
  refine .ite (fun _ => closes_pure) fun _ => ?_
  split
  · next body hmodules =>
    have hbody : (p.module? body).isSome :=
      hp.fit.carried hpw (hmodules ▸ List.mem_singleton_self body)
    have hpresent := hp.alive (hk.alive_of_mem hanchor)
    refine ReshapeChain.walk_bind hp.fit (hp.alive (hx x hgetx)) fun chain hchain => ?_
    refine .instr_bind hpresent fun anchorInst hi => ?_
    refine .lift_checked_bind (lapses_anyShared
      (List.forall_mem_cons.mpr ⟨hpresent, hchain.nodes⟩)) fun multi _ => ?_
    refine .tensorOf_bind halive fun type => .module_bind hbody fun _ _ => ?_
    refine closes_region builds_uniqueName (fun m q hq => ?_) fun m inputs q hq => ?_
    · refine (Building.builds_fuseAnchor (hp.fit.fit hi).op fun y hy =>
        hq.alive (hp.fit.linked.alive_of_input hi hy)).bind fun value r hr hvalue => ?_
      refine (Building.builds_rehomeLiterals ((hq.trans hr).module hbody)).bind fun _ s hs _ => ?_
      refine Proceeds.bind (.edit fun t ht => hchain.settles_replay ht.fit
        (ht.alive (hs.alive hvalue))) fun top t ht htop => ?_
      refine (Building.builds_know htop).bind fun _ u hu _ => ?_
      have hlater := (((hq.trans hr).trans hs).trans ht).trans hu
      exact (Building.builds_fuse (hlater.module hbody) fun y hy => hlater.alive
        (hp.fit.linked.alive_of_input hpw hy)).bind fun _ _ _ _ => .pure fun _ _ => trivial
    refine .ite (fun _ => closes_last (fun r hr => ?_) settling_tidy) fun _ =>
      closes_call (Op.fit_of_carried rfl) settling_tidy
    have hlater := (hp.trans hq).trans hr
    exact settles_splitCall hr.fit (hlater.mem_body hk hanchor) (hlater.mem_body hk hroot)
  · exact closes_pure

end AnchorPointwise

namespace SplitReduce

theorem lapses_onlyPicked {is : List InstrId} (h : ∀ i ∈ is, Present i p) :
    Lapses loose (onlyPicked p is) := by
  induction is with
  | nil => exact faultsIn_pure
  | cons i is ih =>
    obtain ⟨hi, his⟩ := List.forall_mem_cons.mp h
    refine faultsIn_bind.mpr ⟨faultsIn_instr (.inr hi), fun inst _ => ?_⟩
    exact faultsIn_ite.mpr ⟨fun _ => ih his, fun _ => faultsIn_pure⟩

theorem lapses_admits {reduce gemm : InstrId} (hl : p.Linked) (h : Present reduce p) :
    Lapses loose (admits p reduce gemm) := by
  refine faultsIn_bind.mpr ⟨faultsIn_instr (.inr h), fun inst hi => ?_⟩
  refine faultsIn_ite.mpr ⟨fun _ => faultsIn_pure, fun _ => faultsIn_ite.mpr
    ⟨fun _ => lapses_onlyPicked fun c hc => ?_, fun _ => faultsIn_pure⟩⟩
  exact hl.alive_of_consumer (instr_ok.mp hi) hc

/-- The copy of a region without its return. Its value is an operand of the return, so it stays. -/
theorem settles_copyOpen {ret : InstrId} {name : String} (hp : p.Fit loose)
    (hsteady : p.Steady (some main)) (hmain : i ∈ p.body main) (hbelow : p.Below region) :
    (copyOpen region ret name).Settles loose p fun r q => Onward loose p q ∧ Present r.2 q := by
  have hcopy : (copyOpen region ret name).Settles loose p fun r q =>
      q.Fit loose ∧ (∀ m, (p.module? m).isSome → (q.module? m).isSome) ∧ Present r.2 q := by
    rw [copyOpen, settles_bind]
    refine (Edit.settles_copyModule hp).mono fun copied q hok hq => ?_
    obtain ⟨-, himage⟩ := Nesting.copyModule hsteady hmain hbelow hok
    refine settles_lift_bind Renaming.faultsIn_image fun copy hret => ?_
    rw [settles_get_bind]
    have hmem := himage ret copy (Renaming.image_ok.mp hret)
    refine settles_instr_bind (hq.fit.linked.alive_of_mem hmem) fun inst hi => ?_
    split
    · next value hvalue =>
      refine settles_bind.mpr ((Edit.settles_removeInstruction hq.fit).mono
        fun _ r hok hremoved => ?_)
      obtain ⟨hr, -⟩ := hremoved
      obtain ⟨_, m, n, hi', -, hloc, rfl⟩ := Edit.removeInstruction_ok.mp hok
      have huses := List.mem_of_mem_head? hvalue
      obtain ⟨vinst, hv, -⟩ := hq.fit.linked.operand hi huses
      have hcore := sameCore_removed (m := m) (n := n) hi' (hq.fit.linked.operand_ne hi huses)
      obtain ⟨vinst', hv', -⟩ := hcore.symm.exists_instr hv
      exact ⟨hr, fun k hk => (sameNames_removed hq.fit.linked hi' hloc).alive (hq.module hk),
        Option.isSome_iff_exists.mpr ⟨vinst', hv'⟩⟩
    · exact settles_refuse _
  refine hcopy.mono fun r q hok hcopied => ?_
  obtain ⟨m, value⟩ := r
  obtain ⟨hq, hmodules, hvalue⟩ := hcopied
  refine ⟨⟨hq, fun hj => ?_, hmodules _⟩, hvalue⟩
  obtain ⟨b, hb, hcore⟩ :=
    (copyOpen_ok hsteady hmain hbelow hok).toGrown.exists_instr hsteady.toLinked hj
  exact ⟨b, hb, (Instruction.core_eq_iff.mp hcore).2.2.2.2.symm⟩

theorem settling_reread {call c : InstrId} (hc : Present c p) :
    Settling loose (Onward loose p) (Onward loose p) (do
      let op := (← (← get).instr c).op
      Edit.replaceWith c op [call] []) := by
  refine fun q hq => settles_get_bind.mpr (settles_instr_bind (hq.alive hc) fun inst hi => ?_)
  exact (Edit.settles_replaceWith hq.fit (hq.fit.fit hi).op).mono
    fun _ _ _ => hq.trans

theorem settles_reread {reduce call : InstrId} (hp : p.Fit loose) (h : Present reduce p) :
    (do
      ((← (← get).instr reduce).consumers).forM fun consumer => do
        let op := (← (← get).instr consumer).op
        Edit.replaceWith consumer op [call] []
      Edit.removeInstruction reduce : Edit Unit).Settles loose p fun _ q => q.Fit loose := by
  refine settles_get_bind.mpr (settles_instr_bind h fun inst hi => settles_bind.mpr ?_)
  refine ((Settling.forM fun c hc => settling_reread
    (hp.linked.alive_of_consumer hi hc)) p (.refl hp)).mono fun _ q _ hq => ?_
  exact (Edit.settles_removeInstruction hq.fit).mono fun _ _ _ => And.left

theorem settles_splitCall {reduce gemm : InstrId} {tupled : Bool} {anchor : Op} {last : Nat}
    (hp : p.Fit loose) (hreduce : reduce ∈ p.body main) (hgemm : gemm ∈ p.body main) :
    (splitCall reduce gemm tupled anchor inputs m last).Settles loose p fun _ q => q.Fit loose := by
  have hsteps : Settling loose (Onward loose p) (Fit loose)
      (splitCall reduce gemm tupled anchor inputs m last) := by
    refine (Edit.settling_insertBefore rfl).bind fun call =>
      (Edit.settling_insertBefore rfl).bind fun value =>
        (Edit.settling_relocateDependents hp.linked hgemm hreduce).bind fun _ =>
          (Settling.onward fun _ hq => Edit.settles_replaceInstruction hq).bind fun _ => ?_
    refine .ite (fun _ q hq => ?_) fun _ q hq =>
      (Edit.settles_replaceWith hq.fit (Op.fit_of_carried rfl)).mono fun _ _ _ => Onward.fit
    exact settles_reread hq.fit (hq.alive (hp.linked.alive_of_mem hreduce))
  exact hsteps p (.refl hp)

theorem lapses_ofCopy : Lapses loose (Region.ofCopy p m inputs) := by simp [Region.ofCopy]

theorem present_of_ofCopy {region : Region} (hp : p.Fit loose) (h : ∀ i ∈ inputs, Present i p)
    (hok : Region.ofCopy p m inputs = .ok region) : ∀ i, region.Mentions i → Present i p := by
  unfold Region.ofCopy at hok
  dsimp only at hok
  split at hok
  · cases hok
  cases hok
  refine List.foldlRecOn (motive := fun region : Region => ∀ i, region.Mentions i → Present i p)
    _ _ ?_ ?_
  · rintro i (⟨_, ⟨⟩⟩ | ⟨_, ⟨⟩⟩)
  rintro region hregion ⟨param, outer⟩ hpair
  obtain ⟨hparam, houter⟩ := List.of_mem_zip hpair
  have hbound : ∀ i, (region.bindParam param outer).Mentions i → Present i p := fun i hi => by
    obtain rfl | hi := hi.of_bindParam
    · exact h i houter
    · exact hregion i hi
  dsimp only
  split
  · exact hbound
  · intro i hi
    obtain rfl | hi := hi.of_know
    · exact Replay.present_parameters hp i hparam
    · exact hbound i hi

theorem settles_apply {s : Session} (hp : s.program.Fit loose)
    (hsteady : s.program.Steady (some main)) (hroot : found.root ∈ s.program.body main)
    (hgemm : ∀ x, found.get "gemm" = .ok x → s.program.Uses found.root x) :
    (apply found).Settles loose s fun _ => HoldsFit loose := by
  have hl := hp.linked
  have hreduce := hl.alive_of_mem hroot
  refine settles_lift_bind Match.lapses_get fun gemm hget => ?_
  have hbefore := hl.before_of_uses hroot (hgemm gemm hget)
  rw [settles_theProgram_bind]
  refine settles_lift_checked_bind (lapses_admits hl hreduce) fun admitted _ => ?_
  refine settles_ite (fun _ => hp) fun _ => ?_
  refine settles_instr_bind hreduce fun inst hi => ?_
  refine settles_instr_bind (hl.alive_of_mem hbefore.left_mem) fun gemmInst hg => ?_
  split
  · next body oldRegion hmodules =>
    obtain ⟨hbody, hregion⟩ := Prod.mk.inj hmodules
    have hregion : oldRegion ∈ gemmInst.modules := hregion ▸ List.mem_singleton_self oldRegion
    have hbody := hp.carried hi (hbody ▸ List.mem_singleton_self body)
    split
    · split
      · refine settles_lift_checked_bind (faultsIn_module (.inr (hp.carried hg hregion)))
          fun _ _ => ?_
        refine settles_lift_checked_bind (faultsIn_module (.inr hbody)) fun _ _ => ?_
        refine settles_bind.mpr ((settles_uniqueName hp.indexed).mono fun name t _ ht => ?_)
        have hbelow := hsteady.toFramed.below_of_mem hbefore.left_mem hg hregion
        refine settles_bind.mpr (Settles.focus ?_)
        rw [show HoldsProgram.program t = s.program from ht]
        refine (settles_copyOpen hp hsteady hroot hbelow).mono
          fun ⟨m, value⟩ q _ ⟨hq, hvalue⟩ => Closes.settles ?_ hq.fit
        refine .theProgram_bind fun r hr => .lift_graph_bind lapses_ofCopy fun region hok => ?_
        have hlater := hq.trans hr
        have hinputs : ∀ {inst : Instruction} {j : InstrId}, s.program.instr? j = some inst →
            ∀ x ∈ inst.inputs, Present x r := fun hj x hx =>
          hlater.alive (hl.alive_of_input hj hx)
        have hregion : ∀ i, (region.know gemm value).Mentions i → Present i r := fun i hi => by
          obtain rfl | hi := hi.of_know
          · exact hr.alive hvalue
          · exact present_of_ofCopy hr.fit (hinputs hg) hok i hi
        refine .close (builds_building (P := fun _ _ => True)
          ((Building.builds_fuse (hlater.module hbody) (hinputs hi)).bind fun _ _ _ _ =>
            .pure fun _ _ => trivial) hregion) fun built u hu ⟨_, hbuilt⟩ => ?_
        refine .lift_checked_bind Checked.lapses_sub fun last _ => ?_
        refine .close (builds_complete (.pure fun _ _ => trivial) hbuilt) fun inputs v hv _ => ?_
        have hrest : (do
            discard <| Edit.prune [gemm]
            Edit.releaseModule body
            Edit.releaseModule oldRegion
            return true : Fusing Bool).Settling loose (HoldsFit loose) (HoldsFit loose) :=
          settling_prune.bind fun _ => settling_releaseModule.bind fun _ =>
            settling_releaseModule.bind fun _ => .pure _
        refine .ite (fun _ => closes_last (fun w hw => ?_) hrest)
          fun _ => closes_call (Op.fit_of_carried rfl) hrest
        have hend := ((hlater.trans hu).trans hv).trans hw
        exact settles_splitCall hw.fit (hend.mem_body hl hroot)
          (hend.mem_body hl hbefore.left_mem)
      · exact hp
    · exact hp
  · exact hp

end SplitReduce

theorem InputFusion.closes_apply (h : Present found.root k)
    (hpw : ∀ x, found.get "pw" = .ok x → Present x k) : (apply found).Closes loose k := by
  refine .lift_bind Match.lapses_get fun pw hget => .theProgram_bind fun p hp => ?_
  refine .instr_bind (hp.alive h) fun callInst hc => ?_
  refine .instr_bind (hp.alive (hpw pw hget)) fun pwInst hi => ?_
  split
  · next oldRegion body hmodules =>
    obtain ⟨hold, hbody⟩ := Prod.mk.inj hmodules
    have hold := hp.fit.carried hc (hold ▸ List.mem_singleton_self oldRegion)
    have hbody := hp.fit.carried hi (hbody ▸ List.mem_singleton_self body)
    split
    · refine .ite (fun _ => closes_pure) fun _ => ?_
      refine .module_bind hbody fun _ _ => .module_bind hold fun _ _ => ?_
      refine closes_region builds_uniqueName (fun m q hq => ?_) fun m inputs q hq => ?_
      · refine (Building.builds_fuse (hq.module hbody) fun x hx =>
          hq.alive (hp.fit.linked.alive_of_input hi hx)).bind fun produced r hr hproduced => ?_
        split
        · next value hvalue =>
          have hvalue := hproduced value (List.mem_of_mem_head? hvalue)
          refine (Building.builds_know hvalue).bind fun _ t ht _ => ?_
          have hlater := (hq.trans hr).trans ht
          exact (Building.builds_fuse (hlater.module hold) fun x hx =>
            hlater.alive (hp.fit.linked.alive_of_input hc hx)).done
        · exact .refuse _
      · exact closes_call (Op.fit_of_carried rfl) settling_tidy
    · exact closes_pure
  · exact closes_pure

/-- **No rule has a fault but lapses** at a match in the main module, and a program that is fit
stays fit where the rule does not stop. -/
theorem Rule.settles_apply {s : Session} {h : Heuristics} {root : InstrId} (rule : Rule)
    (hp : s.program.Fit loose) (hsteady : s.program.Steady (some main))
    (hroot : root ∈ s.program.body main)
    (hmatch : rule.matcher.run s.program h root = .ok (some found)) :
    (rule.apply found).Settles loose s fun _ => HoldsFit loose := by
  have hl := hp.linked
  obtain rfl : found.root = root := (Matcher.run_ok hmatch).1
  have halive := hl.alive_of_mem hroot
  have huses : ∀ {x}, s.program.Uses found.root x → Present x s.program := fun ⟨_, hi, hx⟩ =>
    hl.alive_of_input hi hx
  cases rule with
  | fusedAttention =>
    obtain ⟨-, -, x, hget, hx, -⟩ := Attention.Fused.match_ok hl hmatch
    exact (Attention.Fused.closes_apply halive fun y hy => by
      cases hget.symm.trans hy
      exact huses hx).settles hp
  | attention => exact (Attention.Alone.closes_apply halive).settles hp
  | anchorPointwise conv dot =>
    obtain ⟨-, -, hx, hanchor⟩ := AnchorPointwise.match_ok hl hroot hmatch
    exact (AnchorPointwise.closes_apply hl hroot (fun x hget => huses (hx x hget))
      fun anchor hget => (hanchor anchor hget).1).settles hp
  | standaloneConv | standaloneDot => exact (Standalone.closes_apply halive).settles hp
  | splitReduce =>
    obtain ⟨-, -, hgemm⟩ := SplitReduce.match_ok hmatch
    exact SplitReduce.settles_apply hp hsteady hroot hgemm
  | inputFusion =>
    obtain ⟨-, x, hget, -, hx, -⟩ := InputFusion.match_ok hl hmatch
    exact (InputFusion.closes_apply halive fun y hy => by
      cases hget.symm.trans hy
      exact huses hx).settles hp

end OffloadFusion
