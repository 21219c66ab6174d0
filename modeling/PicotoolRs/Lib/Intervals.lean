import Mathlib.Data.List.Induction
import Mathlib.Data.List.Sort
import Mathlib.Order.Interval.Set.LinearOrder

/-!
# PicotoolRs.Lib.Intervals

Merging touching intervals of a linear order.

An interval is a pair `(start, stop)` with `start ≤ stop`; the empty ones
(`start = stop`) are allowed. `merge` walks over intervals sorted by `start`
and extends the last interval of the result whenever the next one starts at or
below its end.

Merging keeps the union of the intervals, whichever of `Set.Ico`, `Set.Icc` and
`Set.Ioc` one reads them as (`unionOf_merge`), and leaves a strict gap between
neighbours (`merge_separated`). The three readings together pin down the empty
intervals of the result (`empty_mem_merge`): exactly the empty inputs
that touch no interval but copies of themselves.
-/

namespace Lib.Intervals

variable {α : Type} [LinearOrder α]

/-- Add `r` after the intervals merged so far. -/
def push (acc : List (α × α)) (r : α × α) : List (α × α) :=
  match acc.getLast? with
  | some last => if r.1 ≤ last.2 then acc.dropLast ++ [(last.1, max last.2 r.2)] else acc ++ [r]
  | none => acc ++ [r]

/-- Merge intervals sorted by `start`. -/
def merge (rs : List (α × α)) : List (α × α) := rs.foldl push []

@[simp] theorem push_nil (r : α × α) : push [] r = [r] := rfl

theorem push_concat_of_le {init : List (α × α)} {last r : α × α} (h : r.1 ≤ last.2) :
    push (init ++ [last]) r = init ++ [(last.1, max last.2 r.2)] := by
  simp [push, h]

theorem push_concat_of_lt {init : List (α × α)} {last r : α × α} (h : last.2 < r.1) :
    push (init ++ [last]) r = init ++ [last, r] := by
  simp [push, not_le.mpr h]

@[simp] theorem merge_nil : merge ([] : List (α × α)) = [] := rfl

theorem merge_concat (rs : List (α × α)) (r : α × α) :
    merge (rs ++ [r]) = push (merge rs) r := by
  simp [merge]

theorem length_push_le (acc : List (α × α)) (r : α × α) : (push acc r).length ≤ acc.length + 1 := by
  rcases List.eq_nil_or_concat' acc with rfl | ⟨init, last, rfl⟩
  · simp
  · rcases le_or_gt r.1 last.2 with hle | hlt
    · simp [push_concat_of_le hle]
    · simp [push_concat_of_lt hlt]

/-- Merging adds no intervals. -/
theorem length_merge_le (rs : List (α × α)) : (merge rs).length ≤ rs.length := by
  induction rs using List.reverseRecOn with
  | nil => simp
  | append_singleton rs r ih =>
      rw [merge_concat, List.length_append]
      exact (length_push_le _ _).trans (Nat.succ_le_succ ih)

/-- The intervals are not upside down, and sorted by `start`: what `merge`
expects. -/
structure Sorted (rs : List (α × α)) : Prop where
  /-- No interval is upside down. -/
  proper : ∀ r ∈ rs, r.1 ≤ r.2
  /-- The starts ascend. -/
  ascending : rs.Pairwise fun a b => a.1 ≤ b.1

/-- The intervals are not upside down, and each ends strictly before the next
starts: what `merge` returns. -/
structure Separated (rs : List (α × α)) : Prop where
  /-- No interval is upside down. -/
  proper : ∀ r ∈ rs, r.1 ≤ r.2
  /-- Neighbours do not touch. -/
  apart : rs.Pairwise fun a b => a.2 < b.1

theorem Sorted.of_concat {rs : List (α × α)} {r : α × α} (h : Sorted (rs ++ [r])) :
    Sorted rs ∧ r.1 ≤ r.2 ∧ ∀ q ∈ rs, q.1 ≤ r.1 := by
  have hasc := List.pairwise_append.mp h.ascending
  exact ⟨⟨fun q hq => h.proper q (List.mem_append_left _ hq), hasc.1⟩,
    h.proper r (by simp), fun q hq => hasc.2.2 q hq r (by simp)⟩

theorem Separated.of_concat {rs : List (α × α)} {r : α × α} (h : Separated (rs ++ [r])) :
    Separated rs ∧ r.1 ≤ r.2 ∧ ∀ q ∈ rs, q.2 < r.1 := by
  have hap := List.pairwise_append.mp h.apart
  exact ⟨⟨fun q hq => h.proper q (List.mem_append_left _ hq), hap.1⟩,
    h.proper r (by simp), fun q hq => hap.2.2 q hq r (by simp)⟩

theorem Separated.concat {rs : List (α × α)} {r : α × α} (h : Separated rs) (hr : r.1 ≤ r.2)
    (hap : ∀ q ∈ rs, q.2 < r.1) : Separated (rs ++ [r]) := by
  refine ⟨fun q hq => ?_, List.pairwise_append.mpr ⟨h.apart, List.pairwise_singleton _ _, ?_⟩⟩
  · rcases List.mem_append.mp hq with hq | hq
    · exact h.proper q hq
    · rwa [List.mem_singleton.mp hq]
  · intro q hq r' hr'
    rw [List.mem_singleton.mp hr']
    exact hap q hq

/-- Sorting by `start` gives `merge` what it expects. -/
theorem sorted_insertionSort {rs : List (α × α)} (h : ∀ r ∈ rs, r.1 ≤ r.2) :
    Sorted (rs.insertionSort fun a b => a.1 ≤ b.1) := by
  have : Std.Total fun a b : α × α => a.1 ≤ b.1 := ⟨fun a b => le_total a.1 b.1⟩
  have : IsTrans (α × α) fun a b => a.1 ≤ b.1 := ⟨fun _ _ _ h₁ h₂ => le_trans h₁ h₂⟩
  exact ⟨fun r hr => h r ((List.mem_insertionSort _).mp hr), List.pairwise_insertionSort _ _⟩

/-! ### One push -/

/-- The union of the intervals, each read as a set by `I`. -/
def unionOf {β : Type} (I : α → α → Set β) (rs : List (α × α)) : Set β :=
  {x | ∃ r ∈ rs, x ∈ I r.1 r.2}

omit [LinearOrder α] in
@[simp] theorem mem_unionOf {β : Type} {I : α → α → Set β} {rs : List (α × α)} {x : β} :
    x ∈ unionOf I rs ↔ ∃ r ∈ rs, x ∈ I r.1 r.2 := Iff.rfl

/-- A way to read intervals as sets under which two touching intervals are one.
-/
def Joins {β : Type} (I : α → α → Set β) : Prop :=
  ∀ a b c d, a ≤ b → c ≤ d → a ≤ c → c ≤ b → I a b ∪ I c d = I a (max b d)

theorem joins_Ico : Joins (Set.Ico : α → α → Set α) := fun a b c d _ hcd hac hcb => by
  rw [Set.Ico_union_Ico' hcb (hac.trans hcd), min_eq_left hac]

theorem joins_Icc : Joins (Set.Icc : α → α → Set α) := fun a b c d _ hcd hac hcb => by
  rw [Set.Icc_union_Icc' hcb (hac.trans hcd), min_eq_left hac]

theorem joins_Ioc : Joins (Set.Ioc : α → α → Set α) := fun a b c d _ hcd hac hcb => by
  rw [Set.Ioc_union_Ioc' hcb (hac.trans hcd), min_eq_left hac]

theorem push_separated {acc : List (α × α)} {r : α × α} (h : Separated acc) (hr : r.1 ≤ r.2) :
    Separated (push acc r) := by
  rcases List.eq_nil_or_concat' acc with rfl | ⟨init, last, rfl⟩
  · exact ⟨by simpa using hr, List.pairwise_singleton _ _⟩
  · obtain ⟨hinit, hlast, hgap⟩ := h.of_concat
    rcases le_or_gt r.1 last.2 with hle | hlt
    · rw [push_concat_of_le hle]
      exact hinit.concat (hlast.trans (le_max_left _ _)) hgap
    · rw [push_concat_of_lt hlt]
      have hr' : ∀ q ∈ init ++ [last], q.2 < r.1 := fun q hq => by
        rcases List.mem_append.mp hq with hq | hq
        · exact ((hgap q hq).trans_le hlast).trans hlt
        · rwa [List.mem_singleton.mp hq]
      simpa using h.concat hr hr'

theorem unionOf_push {β : Type} {I : α → α → Set β} (hI : Joins I) {acc : List (α × α)}
    {r : α × α} (h : Separated acc) (hr : r.1 ≤ r.2) (hstart : ∀ q ∈ acc, q.1 ≤ r.1) :
    unionOf I (push acc r) = unionOf I acc ∪ I r.1 r.2 := by
  rcases List.eq_nil_or_concat' acc with rfl | ⟨init, last, rfl⟩
  · ext x
    simp
  · have hlast : last ∈ init ++ [last] := by simp
    ext x
    rcases le_or_gt r.1 last.2 with hle | hlt
    · rw [push_concat_of_le hle]
      have hjoin := hI _ _ _ _ (h.proper last hlast) hr (hstart last hlast) hle
      simp only [mem_unionOf, List.mem_append, List.mem_singleton, or_and_right, exists_or,
        exists_eq_left, ← hjoin, Set.mem_union, or_assoc]
    · rw [push_concat_of_lt hlt]
      simp only [mem_unionOf, List.mem_append, List.mem_cons, List.not_mem_nil, or_false,
        or_and_right, exists_or, exists_eq_left, Set.mem_union, or_assoc]

theorem start_of_mem_push {acc : List (α × α)} {r m : α × α} (h : m ∈ push acc r) :
    m.1 = r.1 ∨ ∃ q ∈ acc, m.1 = q.1 := by
  rcases List.eq_nil_or_concat' acc with rfl | ⟨init, last, rfl⟩
  · exact .inl (by rw [List.mem_singleton.mp h])
  · rcases le_or_gt r.1 last.2 with hle | hlt
    · rw [push_concat_of_le hle] at h
      rcases List.mem_append.mp h with h | h
      · exact .inr ⟨m, List.mem_append_left _ h, rfl⟩
      · exact .inr ⟨last, by simp, by rw [List.mem_singleton.mp h]⟩
    · rw [push_concat_of_lt hlt] at h
      have h' : m ∈ init ++ [last] ∨ m = r := by simpa [or_assoc] using h
      rcases h' with h' | rfl
      · exact .inr ⟨m, h', rfl⟩
      · exact .inl rfl

theorem stop_of_mem_push {acc : List (α × α)} {r m : α × α} (h : m ∈ push acc r) :
    m.2 = r.2 ∨ ∃ q ∈ acc, m.2 = q.2 := by
  rcases List.eq_nil_or_concat' acc with rfl | ⟨init, last, rfl⟩
  · exact .inl (by rw [List.mem_singleton.mp h])
  · rcases le_or_gt r.1 last.2 with hle | hlt
    · rw [push_concat_of_le hle] at h
      rcases List.mem_append.mp h with h | h
      · exact .inr ⟨m, List.mem_append_left _ h, rfl⟩
      · rw [List.mem_singleton.mp h]
        rcases le_total r.2 last.2 with hle' | hle'
        · exact .inr ⟨last, by simp, max_eq_left hle'⟩
        · exact .inl (max_eq_right hle')
    · rw [push_concat_of_lt hlt] at h
      have h' : m ∈ init ++ [last] ∨ m = r := by simpa [or_assoc] using h
      rcases h' with h' | rfl
      · exact .inr ⟨m, h', rfl⟩
      · exact .inl rfl

/-! ### The whole merge -/

/-- Every interval of the result starts where some input starts. -/
theorem start_of_mem_merge {rs : List (α × α)} {m : α × α} (h : m ∈ merge rs) :
    ∃ q ∈ rs, m.1 = q.1 := by
  induction rs using List.reverseRecOn generalizing m with
  | nil => simp at h
  | append_singleton rs r ih =>
      rw [merge_concat] at h
      rcases start_of_mem_push h with h | ⟨q, hq, h⟩
      · exact ⟨r, by simp, h⟩
      · obtain ⟨q', hq', h'⟩ := ih hq
        exact ⟨q', List.mem_append_left _ hq', h.trans h'⟩

/-- Every interval of the result ends where some input ends. -/
theorem stop_of_mem_merge {rs : List (α × α)} {m : α × α} (h : m ∈ merge rs) :
    ∃ q ∈ rs, m.2 = q.2 := by
  induction rs using List.reverseRecOn generalizing m with
  | nil => simp at h
  | append_singleton rs r ih =>
      rw [merge_concat] at h
      rcases stop_of_mem_push h with h | ⟨q, hq, h⟩
      · exact ⟨r, by simp, h⟩
      · obtain ⟨q', hq', h'⟩ := ih hq
        exact ⟨q', List.mem_append_left _ hq', h.trans h'⟩

theorem merge_separated {rs : List (α × α)} (h : Sorted rs) : Separated (merge rs) := by
  induction rs using List.reverseRecOn with
  | nil => exact ⟨by simp, by simp⟩
  | append_singleton rs r ih =>
      obtain ⟨hrs, hr, -⟩ := h.of_concat
      rw [merge_concat]
      exact push_separated (ih hrs) hr

/-- Merging keeps the union. -/
theorem unionOf_merge {β : Type} {I : α → α → Set β} (hI : Joins I) {rs : List (α × α)}
    (h : Sorted rs) : unionOf I (merge rs) = unionOf I rs := by
  induction rs using List.reverseRecOn with
  | nil => simp
  | append_singleton rs r ih =>
      obtain ⟨hrs, hr, hle⟩ := h.of_concat
      have hstart : ∀ q ∈ merge rs, q.1 ≤ r.1 := fun q hq => by
        obtain ⟨q', hq', heq⟩ := start_of_mem_merge hq
        exact heq ▸ hle q' hq'
      rw [merge_concat, unionOf_push hI (merge_separated hrs) hr hstart, ih hrs]
      ext x
      simp only [Set.mem_union, mem_unionOf, List.mem_append, List.mem_singleton, or_and_right,
        exists_or, exists_eq_left]

/-- The last interval of the result ends last. -/
theorem le_last_of_merge {rs init : List (α × α)} {last : α × α} (h : Sorted rs)
    (hmerge : merge rs = init ++ [last]) {r : α × α} (hr : r ∈ rs) : r.2 ≤ last.2 := by
  have hsep := merge_separated h
  rw [hmerge] at hsep
  obtain ⟨-, hproper, hgap⟩ := hsep.of_concat
  have hIcc := Set.ext_iff.mp (unionOf_merge joins_Icc h) r.2
  obtain ⟨m, hm, -, hle⟩ := hIcc.mpr ⟨r, hr, h.proper r hr, le_refl _⟩
  rw [hmerge, List.mem_append, List.mem_singleton] at hm
  rcases hm with hm | rfl
  · exact hle.trans ((hgap m hm).le.trans hproper)
  · exact hle

/-- An interval that starts where another reaches to, and does not end above it, is
dropped. -/
theorem merge_concat_of_le {rs : List (α × α)} {r q : α × α} (h : Sorted rs) (hr : r ∈ rs)
    (hstart : q.1 ≤ r.2) (hstop : q.2 ≤ r.2) : merge (rs ++ [q]) = merge rs := by
  rw [merge_concat]
  rcases List.eq_nil_or_concat' (merge rs) with hnil | ⟨init, last, hlast⟩
  · have hmem : ∃ m ∈ merge rs, r.2 ∈ Set.Icc m.1 m.2 :=
      (Set.ext_iff.mp (unionOf_merge joins_Icc h) r.2).mpr ⟨r, hr, h.proper r hr, le_refl _⟩
    simp [hnil] at hmem
  · have hle := le_last_of_merge h hlast hr
    rw [hlast, push_concat_of_le (hstart.trans hle), max_eq_left (hstop.trans hle)]

/-- An interval that starts above the end of all others becomes the last. -/
theorem merge_concat_of_lt {rs : List (α × α)} {q : α × α} (h : ∀ r ∈ rs, r.2 < q.1) :
    merge (rs ++ [q]) = merge rs ++ [q] := by
  rw [merge_concat]
  rcases List.eq_nil_or_concat' (merge rs) with hnil | ⟨init, last, hlast⟩
  · rw [hnil]
    rfl
  · obtain ⟨r, hr, hstop⟩ := stop_of_mem_merge (show last ∈ merge rs by simp [hlast])
    rw [hlast, push_concat_of_lt (hstop ▸ h r hr), List.append_assoc]
    rfl

/-- Intervals at the end that are upside down and stop low: below their own starts, and
not above the end of a proper one. Either each of them starts where a proper one
reaches to, and then merging drops them, or one of them is the last of the result. -/
theorem merge_append_low {rs qs : List (α × α)} (h : Sorted rs)
    (hlow : ∀ q ∈ qs, ∀ r ∈ rs, q.2 ≤ r.2) (hdown : ∀ q ∈ qs, ∀ q' ∈ qs, q.2 < q'.1) :
    ((∀ q ∈ qs, ∃ r ∈ rs, q.1 ≤ r.2) ∧ merge (rs ++ qs) = merge rs) ∨
      ((∃ q ∈ qs, ∀ r ∈ rs, r.2 < q.1) ∧ ∃ init m, merge (rs ++ qs) = init ++ [m] ∧ m ∈ qs) := by
  induction qs using List.reverseRecOn with
  | nil => simp
  | append_singleton qs q ih =>
      simp only [List.forall_mem_append, List.forall_mem_singleton] at hlow hdown
      rw [← List.append_assoc, merge_concat]
      rcases ih hlow.1 fun p hp => (hdown.1 p hp).1 with
        ⟨hall, heq⟩ | ⟨⟨p, hp, hnone⟩, init, m, heq, hm⟩
      · rw [heq, ← merge_concat]
        by_cases hq : ∃ r ∈ rs, q.1 ≤ r.2
        · obtain ⟨r, hr, hle⟩ := hq
          refine .inl ⟨?_, merge_concat_of_le h hr hle (hlow.2 r hr)⟩
          simp only [List.forall_mem_append, List.forall_mem_singleton]
          exact ⟨hall, r, hr, hle⟩
        · have hnone : ∀ r ∈ rs, r.2 < q.1 := fun r hr => not_le.mp fun hle => hq ⟨r, hr, hle⟩
          exact .inr ⟨⟨q, by simp, hnone⟩, merge rs, q, merge_concat_of_lt hnone, by simp⟩
      · -- the last interval so far stops below the start of this one
        refine .inr ⟨⟨p, by simp [hp], hnone⟩, init ++ [m], q, ?_, by simp⟩
        rw [heq, push_concat_of_lt (hdown.1 m hm).2, List.append_assoc]
        rfl

/-- In a separated list, two intervals that touch at a point are the same. -/
theorem Separated.eq_of_mem_Icc {rs : List (α × α)} (h : Separated rs) {m m' : α × α} {x : α}
    (hm : m ∈ rs) (hm' : m' ∈ rs) (hx : x ∈ Set.Icc m.1 m.2) (hx' : x ∈ Set.Icc m'.1 m'.2) :
    m = m' := by
  induction rs with
  | nil => simp at hm
  | cons r rs ih =>
      obtain ⟨hgap, hap⟩ := List.pairwise_cons.mp h.apart
      have hrs : Separated rs := ⟨fun q hq => h.proper q (List.mem_cons_of_mem _ hq), hap⟩
      rcases List.mem_cons.mp hm with rfl | hmr <;> rcases List.mem_cons.mp hm' with rfl | hmr'
      · rfl
      · exact absurd (hx'.1.trans hx.2) (not_le.mpr (hgap _ hmr'))
      · exact absurd (hx.1.trans hx'.2) (not_le.mpr (hgap _ hmr))
      · exact ih hrs hmr hmr'

/-- The result contains the empty interval at `s` exactly if some input touches
`s` and every input that does is the empty interval at `s`. -/
theorem empty_mem_merge {rs : List (α × α)} (h : Sorted rs) {s : α} :
    (s, s) ∈ merge rs ↔
      (∃ q ∈ rs, s ∈ Set.Icc q.1 q.2) ∧ ∀ q ∈ rs, s ∈ Set.Icc q.1 q.2 → q = (s, s) := by
  have hsep := merge_separated h
  have hIcc := Set.ext_iff.mp (unionOf_merge joins_Icc h)
  have hIco := Set.ext_iff.mp (unionOf_merge joins_Ico h)
  have hIoc := Set.ext_iff.mp (unionOf_merge joins_Ioc h)
  constructor
  · intro hs
    refine ⟨(hIcc s).mp ⟨_, hs, le_refl s, le_refl s⟩, fun q hq ⟨hle, hge⟩ => ?_⟩
    -- a longer input at `s` would leave `s` inside a longer interval of the result
    have hno : ∀ m ∈ merge rs, s ∈ Set.Icc m.1 m.2 → m = (s, s) := fun m hm hx =>
      hsep.eq_of_mem_Icc hm hs hx ⟨le_refl s, le_refl s⟩
    have hlo : ¬ q.1 < s := fun hlt => by
      obtain ⟨m, hm, h₁, h₂⟩ := (hIoc s).mpr ⟨q, hq, hlt, hge⟩
      rw [hno m hm ⟨h₁.le, h₂⟩] at h₁
      exact lt_irrefl _ h₁
    have hhi : ¬ s < q.2 := fun hlt => by
      obtain ⟨m, hm, h₁, h₂⟩ := (hIco s).mpr ⟨q, hq, hle, hlt⟩
      rw [hno m hm ⟨h₁, h₂.le⟩] at h₂
      exact lt_irrefl _ h₂
    exact Prod.ext (le_antisymm hle (not_lt.mp hlo)) (le_antisymm (not_lt.mp hhi) hge)
  · intro h
    obtain ⟨⟨q, hq, hsq⟩, hall⟩ := h
    obtain ⟨m, hm, hle, hge⟩ := (hIcc s).mpr ⟨q, hq, hsq⟩
    have hlo : ¬ m.1 < s := fun hlt => by
      obtain ⟨p, hp, h₁, h₂⟩ := (hIoc s).mp ⟨m, hm, hlt, hge⟩
      rw [hall p hp ⟨h₁.le, h₂⟩] at h₁
      exact lt_irrefl _ h₁
    have hhi : ¬ s < m.2 := fun hlt => by
      obtain ⟨p, hp, h₁, h₂⟩ := (hIco s).mp ⟨m, hm, hle, hlt⟩
      rw [hall p hp ⟨h₁, h₂.le⟩] at h₂
      exact lt_irrefl _ h₂
    have hms : m = (s, s) :=
      Prod.ext (le_antisymm hle (not_lt.mp hlo)) (le_antisymm (not_lt.mp hhi) hge)
    exact hms ▸ hm

/-! ### Uniqueness -/

/-- Of two separated lists without empty intervals and with the same union, the
first intervals are equal. -/
theorem Separated.head_eq {r q : α × α} {rs qs : List (α × α)} (hr : Separated (r :: rs))
    (hq : Separated (q :: qs)) (hrlt : r.1 < r.2) (hqlt : q.1 < q.2)
    (h : unionOf Set.Ico (r :: rs) = unionOf Set.Ico (q :: qs)) : r = q := by
  have hrgap := (List.pairwise_cons.mp hr.apart).1
  have hqgap := (List.pairwise_cons.mp hq.apart).1
  have hmem := fun x => Set.ext_iff.mp h x
  simp only [mem_unionOf, List.mem_cons, exists_eq_or_imp, Set.mem_Ico] at hmem
  -- the least point of the union is where the first interval starts
  have hstart : r.1 = q.1 := by
    refine le_antisymm ?_ ?_
    · rcases (hmem q.1).mpr (.inl ⟨le_refl _, hqlt⟩) with ⟨hle, -⟩ | ⟨t, ht, hle, -⟩
      · exact hle
      · exact (hrlt.trans (hrgap t ht)).le.trans hle
    · rcases (hmem r.1).mp (.inl ⟨le_refl _, hrlt⟩) with ⟨hle, -⟩ | ⟨t, ht, hle, -⟩
      · exact hle
      · exact (hqlt.trans (hqgap t ht)).le.trans hle
  -- and it ends at the first point that is missing
  have hstop : r.2 = q.2 := by
    refine le_antisymm (not_lt.mp fun hlt => ?_) (not_lt.mp fun hlt => ?_)
    · rcases (hmem q.2).mp (.inl ⟨hstart.le.trans hqlt.le, hlt⟩) with ⟨-, hlt'⟩ | ⟨t, ht, hle, -⟩
      · exact lt_irrefl _ hlt'
      · exact absurd hle (not_le.mpr (hqgap t ht))
    · rcases (hmem r.2).mpr (.inl ⟨hstart.ge.trans hrlt.le, hlt⟩) with ⟨-, hlt'⟩ | ⟨t, ht, hle, -⟩
      · exact lt_irrefl _ hlt'
      · exact absurd hle (not_le.mpr (hrgap t ht))
  exact Prod.ext hstart hstop

/-- Taking away the first interval of a separated list takes it away from the
union. -/
theorem Separated.mem_unionOf_tail {r : α × α} {rs : List (α × α)} (h : Separated (r :: rs))
    (x : α) : x ∈ unionOf Set.Ico rs ↔ x ∈ unionOf Set.Ico (r :: rs) ∧ r.2 ≤ x := by
  have hgap := (List.pairwise_cons.mp h.apart).1
  simp only [mem_unionOf, List.mem_cons, exists_eq_or_imp]
  constructor
  · intro h
    obtain ⟨t, ht, hx⟩ := h
    exact ⟨.inr ⟨t, ht, hx⟩, (hgap t ht).le.trans hx.1⟩
  · intro h
    obtain ⟨hx | htail, hle⟩ := h
    · exact absurd hx.2 (not_lt.mpr hle)
    · exact htail

/-- A separated list without empty intervals is determined by its union. -/
theorem Separated.eq_of_unionOf {rs qs : List (α × α)} (hrs : Separated rs) (hqs : Separated qs)
    (hrlt : ∀ r ∈ rs, r.1 < r.2) (hqlt : ∀ q ∈ qs, q.1 < q.2)
    (h : unionOf Set.Ico rs = unionOf Set.Ico qs) : rs = qs := by
  induction rs generalizing qs with
  | nil =>
      cases qs with
      | nil => rfl
      | cons q qs =>
          obtain ⟨r, hr, -⟩ := (Set.ext_iff.mp h q.1).mpr
            ⟨q, List.mem_cons_self .., le_refl _, hqlt q (List.mem_cons_self ..)⟩
          simp at hr
  | cons r rs ih =>
      cases qs with
      | nil =>
          obtain ⟨q, hq, -⟩ := (Set.ext_iff.mp h r.1).mp
            ⟨r, List.mem_cons_self .., le_refl _, hrlt r (List.mem_cons_self ..)⟩
          simp at hq
      | cons q qs =>
          obtain rfl := hrs.head_eq hqs (hrlt r (List.mem_cons_self ..))
            (hqlt q (List.mem_cons_self ..)) h
          have htail : unionOf Set.Ico rs = unionOf Set.Ico qs := by
            ext x
            rw [hrs.mem_unionOf_tail, hqs.mem_unionOf_tail, h]
          rw [List.forall_mem_cons] at hrlt hqlt
          have hrs' : Separated rs :=
            ⟨(List.forall_mem_cons.mp hrs.proper).2, (List.pairwise_cons.mp hrs.apart).2⟩
          have hqs' : Separated qs :=
            ⟨(List.forall_mem_cons.mp hqs.proper).2, (List.pairwise_cons.mp hqs.apart).2⟩
          rw [ih hrs' hqs' hrlt.2 hqlt.2 htail]

end Lib.Intervals
