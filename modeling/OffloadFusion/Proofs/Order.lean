import Mathlib.Data.List.Forall2
import Mathlib.Data.List.InsertIdx
import Mathlib.Data.List.Nodup

/-!
# The order of a list

* `Before l a b`: `a` stands before `b` in `l`. Insertions keep it (`Before.insertIdx`), and so do
  removals of other elements (`Before.filter`).
* `before_append_cons`: in a list without repetition, what stands before an element is what is left
  of it.
* `Before.idxOf_lt`, `before_of_idxOf?_lt`: the same by positions.
* `eraseIdx_of_idxOf?`: taking an element out of a list without repetition.
* `forall₂_comp`: relations between the elements of three lists.
-/

namespace OffloadFusion

variable {α : Type} {l l' : List α} {a b x : α} {n k : Nat}

/-- `a` stands before `b`. -/
def Before (l : List α) (a b : α) : Prop := [a, b].Sublist l

theorem before_iff : Before l a b ↔ ∃ l₁ l₂, l = l₁ ++ b :: l₂ ∧ a ∈ l₁ := by
  constructor
  · intro h
    obtain ⟨u, v, rfl, ha, hb⟩ := List.cons_sublist_iff.mp h
    obtain ⟨v₁, v₂, rfl⟩ := List.mem_iff_append.mp (List.singleton_sublist.mp hb)
    exact ⟨u ++ v₁, v₂, by simp, List.mem_append_left _ ha⟩
  · rintro ⟨l₁, l₂, rfl, ha⟩
    exact (List.singleton_sublist.mpr ha).append (List.singleton_sublist.mpr List.mem_cons_self)

theorem Before.left_mem (h : Before l a b) : a ∈ l := h.subset (by simp)

theorem Before.right_mem (h : Before l a b) : b ∈ l := h.subset (by simp)

theorem Before.mono (h : Before l a b) (hl : l.Sublist l') : Before l' a b := h.trans hl

theorem Before.insertIdx (h : Before l a b) (n : Nat) (x : α) : Before (l.insertIdx n x) a b :=
  h.mono (List.sublist_insertIdx l n x)

theorem Before.filter {p : α → Bool} (h : Before l a b) (ha : p a) (hb : p b) :
    Before (l.filter p) a b := by
  have := List.Sublist.filter p h
  rwa [List.filter_cons_of_pos ha, List.filter_cons_of_pos hb, List.filter_nil] at this

theorem Before.ne (h : Before l a b) (hn : l.Nodup) : a ≠ b := by
  have := hn.sublist h
  simp at this
  exact this

/-- In a list without repetition, what stands before an element is what is left of it. -/
theorem before_append_cons {l₁ l₂ : List α} (hn : (l₁ ++ b :: l₂).Nodup) :
    Before (l₁ ++ b :: l₂) a b ↔ a ∈ l₁ := by
  refine ⟨fun h => ?_, fun h => before_iff.mpr ⟨l₁, l₂, rfl, h⟩⟩
  obtain ⟨u, v, he, ha⟩ := before_iff.mp h
  have hb : b ∉ l₁ := fun hb => (List.nodup_append.mp hn).2.2 b hb b List.mem_cons_self rfl
  have hu : b ∉ u := fun hb => by
    rw [he] at hn
    exact (List.nodup_append.mp hn).2.2 b hb b List.mem_cons_self rfl
  -- both splits are at the only place of `b`
  have := List.append_eq_append_iff.mp he
  rcases this with ⟨w, rfl, hw⟩ | ⟨w, rfl, hw⟩
  · cases w with
    | nil => simpa using ha
    | cons c w =>
      obtain ⟨rfl, -⟩ := List.cons.inj hw
      exact absurd (List.mem_append_right _ List.mem_cons_self) hu
  · exact List.mem_append_left _ ha

theorem insertIdx_eq_take_drop (hn : n ≤ l.length) :
    l.insertIdx n x = l.take n ++ x :: l.drop n := by
  induction l generalizing n with
  | nil => simp_all
  | cons c l ih =>
    cases n with
    | zero => rfl
    | succ n => simp [ih (Nat.le_of_succ_le_succ hn)]

theorem before_insertIdx_self (ha : a ∈ l.take n) (hn : n ≤ l.length) :
    Before (l.insertIdx n x) a x := by
  rw [insertIdx_eq_take_drop hn]
  exact before_iff.mpr ⟨_, _, rfl, ha⟩

theorem nodup_insertIdx (hl : l.Nodup) (hx : x ∉ l) (hn : n ≤ l.length) :
    (l.insertIdx n x).Nodup := by
  rw [(List.perm_insertIdx x l hn).nodup_iff]
  exact List.nodup_cons.mpr ⟨hx, hl⟩

theorem Before.trans (hab : Before l a b) (hn : l.Nodup) (hbx : Before l b x) : Before l a x := by
  obtain ⟨l₁, l₂, rfl, hb⟩ := before_iff.mp hbx
  obtain ⟨u, v, rfl⟩ := List.append_of_mem hb
  rw [List.append_assoc] at hab hn
  have ha := (before_append_cons hn).mp hab
  exact before_iff.mpr ⟨u ++ b :: v, l₂, rfl, List.mem_append_left _ ha⟩

theorem Before.asymm (hab : Before l a b) (hn : l.Nodup) : ¬ Before l b a := fun hba =>
  (hab.trans hn hba).ne hn rfl

theorem nodup_of_split (h : ∀ l₁ a l₂, l = l₁ ++ a :: l₂ → a ∉ l₁) : l.Nodup := by
  rw [List.nodup_iff_sublist]
  intro a ha
  obtain ⟨l₁, l₂, he, hmem⟩ := before_iff.mp ha
  exact h l₁ a l₂ he hmem

theorem getLast?_append_cons {l₁ l₂ : List α} (hn : (l₁ ++ a :: l₂).Nodup) :
    (l₁ ++ a :: l₂).getLast? = some a ↔ l₂ = [] := by
  constructor
  · intro h
    cases l₂ with
    | nil => rfl
    | cons b l₂ =>
      have ha : a ∉ b :: l₂ := (List.nodup_cons.mp (List.nodup_append.mp hn).2.1).1
      have hlast : (b :: l₂).getLast? = some a := by simpa using h
      exact absurd (List.mem_of_getLast? hlast) ha
  · rintro rfl
    simp

section Positions

variable [DecidableEq α]

theorem Before.idxOf_lt (hl : l.Nodup) (h : Before l a b) : l.idxOf a < l.idxOf b := by
  obtain ⟨l₁, l₂, rfl, ha⟩ := before_iff.mp h
  have hb : b ∉ l₁ := fun hb => (List.nodup_append.mp hl).2.2 b hb b List.mem_cons_self rfl
  rw [List.idxOf_append_of_mem ha, List.idxOf_append_of_notMem hb, List.idxOf_cons_self]
  have := List.idxOf_lt_length_of_mem ha
  omega

theorem mem_take_of_idxOf? (h : l.idxOf? a = some k) (hk : k < n) : a ∈ l.take n := by
  obtain ⟨hl, rfl, -⟩ := List.idxOf?_eq_some_iff.mp h
  exact List.mem_take_iff_getElem.mpr ⟨k, by omega, rfl⟩

theorem before_of_idxOf?_lt (ha : l.idxOf? a = some k) (hb : l.idxOf? b = some n) (h : k < n) :
    Before l a b := by
  obtain ⟨hl, rfl, -⟩ := List.idxOf?_eq_some_iff.mp hb
  refine before_iff.mpr ⟨l.take n, l.drop (n + 1), ?_, mem_take_of_idxOf? ha h⟩
  rw [← List.drop_eq_getElem_cons hl, List.take_append_drop]

theorem eraseIdx_of_idxOf? (hl : l.Nodup) (h : l.idxOf? a = some k) :
    l.eraseIdx k = l.filter (· ≠ a) := by
  have he : l.erase a = l.eraseIdx k := by rw [List.erase_eq_eraseIdx, h]
  rw [← he, hl.erase_eq_filter]
  simp [bne, beq_eq_decide]

end Positions

/-! ## Parts of a list -/

section Parts

variable {α : Type} {l₁ l₂ l : List α} {a b : α}

theorem before_append : Before (l₁ ++ l₂) a b ↔
    Before l₁ a b ∨ (a ∈ l₁ ∧ b ∈ l₂) ∨ Before l₂ a b := by
  constructor
  · intro h
    obtain ⟨u, v, he, hu, hv⟩ := List.sublist_append_iff.mp h
    match u with
    | [] =>
      cases he
      exact .inr (.inr hv)
    | [c] =>
      cases he
      exact .inr (.inl ⟨List.singleton_sublist.mp hu, List.singleton_sublist.mp hv⟩)
    | c :: d :: u =>
      simp only [List.cons_append, List.cons.injEq] at he
      obtain ⟨rfl, rfl, he⟩ := he
      obtain ⟨rfl, -⟩ := List.append_eq_nil_iff.mp he.symm
      exact .inl hu
  · rintro (h | ⟨ha, hb⟩ | h)
    · exact h.mono (List.sublist_append_left l₁ l₂)
    · exact (List.singleton_sublist.mpr ha).append (List.singleton_sublist.mpr hb)
    · exact h.mono (List.sublist_append_right l₁ l₂)

/-- Moving the elements with a property to the end keeps an order along which the property is
passed on. -/
theorem Before.partition {f : α → Bool} (h : Before l a b) (hf : f a → f b) :
    Before (l.filter (fun c => !f c) ++ l.filter f) a b := by
  rw [before_append]
  by_cases ha : f a
  · exact .inr (.inr (h.filter ha (hf ha)))
  by_cases hb : f b
  · exact .inr (.inl ⟨List.mem_filter.mpr ⟨h.left_mem, by simp [ha]⟩,
      List.mem_filter.mpr ⟨h.right_mem, hb⟩⟩)
  · exact .inl (h.filter (by simp [ha]) (by simp [hb]))

theorem mem_partition {f : α → Bool} :
    a ∈ l.filter (fun c => !f c) ++ l.filter f ↔ a ∈ l := by
  rw [List.mem_append, List.mem_filter, List.mem_filter]
  by_cases ha : f a <;> simp [ha]

theorem Before.partition_mid {f : α → Bool} (h : Before (l₁ ++ l ++ l₂) a b) (hf : f a → f b) :
    Before (l₁ ++ (l.filter (fun c => !f c) ++ l.filter f) ++ l₂) a b := by
  rw [List.append_assoc, before_append, before_append, List.mem_append] at h ⊢
  rw [mem_partition, mem_partition]
  obtain h | h | h | h | h := h
  · exact .inl h
  · exact .inr (.inl h)
  · exact .inr (.inr (.inl (h.partition hf)))
  · exact .inr (.inr (.inr (.inl h)))
  · exact .inr (.inr (.inr (.inr h)))

/-- In a partition, an element without the property stands before those that have it and those
behind. -/
theorem before_partition {f : α → Bool} (ha : a ∈ l₁ ++ l) (hfa : f a = false) (hb : b ∈ l ++ l₂)
    (hfb : b ∈ l → f b) : Before (l₁ ++ (l.filter (fun c => !f c) ++ l.filter f) ++ l₂) a b := by
  have hleft : a ∈ l₁ ++ l.filter fun c => !f c := by
    obtain ha | ha := List.mem_append.mp ha
    · exact List.mem_append_left _ ha
    · exact List.mem_append_right _ (List.mem_filter.mpr ⟨ha, by simp [hfa]⟩)
  have hright : b ∈ l.filter f ++ l₂ := by
    obtain hb | hb := List.mem_append.mp hb
    · exact List.mem_append_left _ (List.mem_filter.mpr ⟨hb, hfb hb⟩)
    · exact List.mem_append_right _ hb
  rw [← List.append_assoc, List.append_assoc, before_append]
  exact .inr (.inl ⟨hleft, hright⟩)

end Parts

/-! ## Elements side by side -/

theorem forall₂_comp {α β γ : Type*} {R : α → β → Prop} {S : β → γ → Prop} {T : α → γ → Prop}
    {xs : List α} {ys : List β} {zs : List γ} (h : ∀ {a b c}, R a b → S b c → T a c)
    (hxy : List.Forall₂ R xs ys) (hyz : List.Forall₂ S ys zs) : List.Forall₂ T xs zs := by
  induction hxy generalizing zs with
  | nil => cases hyz; exact .nil
  | cons hab _ ih =>
    cases hyz with
    | cons hbc hrest => exact .cons (h hab hbc) (ih hrest)

theorem forall₂_exists {α β : Type*} {R : α → β → Prop} {xs : List α} {ys : List β}
    (h : List.Forall₂ R xs ys) {x : α} (hx : x ∈ xs) : ∃ y ∈ ys, R x y := by
  induction h with
  | nil => cases hx
  | cons hxy _ ih =>
    obtain rfl | hx := List.mem_cons.mp hx
    · exact ⟨_, List.mem_cons_self, hxy⟩
    · obtain ⟨y, hy, hr⟩ := ih hx
      exact ⟨y, List.mem_cons_of_mem _ hy, hr⟩

theorem forall₂_imp_of_mem {α β : Type*} {R S : α → β → Prop} {xs : List α} {ys : List β}
    (h : List.Forall₂ R xs ys) (himp : ∀ x ∈ xs, ∀ y, R x y → S x y) : List.Forall₂ S xs ys := by
  induction h with
  | nil => exact .nil
  | cons hxy _ ih =>
    exact .cons (himp _ List.mem_cons_self _ hxy)
      (ih fun x hx => himp x (List.mem_cons_of_mem _ hx))

theorem forall₂_getElem? {α β : Type*} {R : α → β → Prop} {xs : List α} {ys : List β} {k : Nat}
    {x : α} (h : List.Forall₂ R xs ys) (hx : xs[k]? = some x) : ∃ y, ys[k]? = some y ∧ R x y := by
  obtain ⟨hlen, hget⟩ := List.forall₂_iff_get.mp h
  obtain ⟨hk, rfl⟩ := List.getElem?_eq_some_iff.mp hx
  exact ⟨ys[k], List.getElem?_eq_getElem (hlen ▸ hk), hget k hk (hlen ▸ hk)⟩

end OffloadFusion
