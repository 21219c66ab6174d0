import Mathlib.Algebra.GroupWithZero.Nat
import Mathlib.Data.List.Basic
import Mathlib.Data.List.Induction
import Mathlib.Data.List.Sort
import Mathlib.Data.Nat.Basic
import Mathlib.Order.Basic

/-!
# PicotoolRs.Lib.Runs

Coalescing contiguous **runs**: pieces of data, each placed at an address.

`push` adds a run after those collected so far. It extends the last one when
the new run starts exactly at its end, opens a new one when there is a gap, and
refuses a run that starts below that end. Only the last run is ever looked at.

`Coalesced rs out` collects what a successful `coalesce` guarantees about its
input `rs` and output `out`, and `coalesce_eq_some_iff` says when it succeeds:
exactly when every run starts at or above the end of *every* earlier one, not
just of the last.
-/

namespace Lib

variable {α : Type}

/-- Data placed at consecutive addresses from `start` on. -/
structure Run (α : Type) where
  start : Nat
  data : List α
  deriving Repr, DecidableEq

namespace Run

/-- The first address past the run. -/
def stop (r : Run α) : Nat := r.start + r.data.length

/-- The run has `v` at address `a`. -/
def Holds (r : Run α) (a : Nat) (v : α) : Prop := r.start ≤ a ∧ r.data[a - r.start]? = some v

/-- The run has some value at address `a`. -/
def Covers (r : Run α) (a : Nat) : Prop := r.start ≤ a ∧ a < r.stop

theorem start_le_stop (r : Run α) : r.start ≤ r.stop := Nat.le_add_right _ _

theorem Holds.covers {r : Run α} {a : Nat} {v : α} (h : r.Holds a v) : r.Covers a := by
  obtain ⟨hle, hv⟩ := h
  obtain ⟨hlt, -⟩ := List.getElem?_eq_some_iff.mp hv
  exact ⟨hle, by unfold stop; omega⟩

theorem Covers.holds {r : Run α} {a : Nat} (h : r.Covers a) : ∃ v, r.Holds a v := by
  have hlt : a - r.start < r.data.length := by
    have := h.1
    have := h.2
    unfold stop at this
    omega
  exact ⟨r.data[a - r.start], h.1, List.getElem?_eq_getElem hlt⟩

theorem covers_iff_holds {r : Run α} {a : Nat} : r.Covers a ↔ ∃ v, r.Holds a v :=
  ⟨Covers.holds, fun ⟨_, h⟩ => h.covers⟩

theorem stop_eq_start_iff {r : Run α} : r.stop = r.start ↔ r.data = [] := by
  unfold stop
  rw [← List.length_eq_zero_iff]
  omega

/-- The run extended by further data. -/
def extend (r : Run α) (data : List α) : Run α := ⟨r.start, r.data ++ data⟩

@[simp] theorem extend_start (r : Run α) (data : List α) : (r.extend data).start = r.start := rfl

@[simp] theorem extend_data (r : Run α) (data : List α) :
    (r.extend data).data = r.data ++ data := rfl

theorem extend_stop (r : Run α) (data : List α) :
    (r.extend data).stop = r.stop + data.length := by
  simp only [stop, extend, List.length_append, Nat.add_assoc]

/-- An extended run holds what the run held, and the new data at its old end. -/
theorem holds_extend {r : Run α} {data : List α} {a : Nat} {v : α} :
    (r.extend data).Holds a v ↔ r.Holds a v ∨ (Run.mk r.stop data).Holds a v := by
  unfold Holds extend stop
  dsimp only
  constructor
  · intro h
    obtain ⟨hle, hv⟩ := h
    rcases Nat.lt_or_ge (a - r.start) r.data.length with hlt | hge
    · exact .inl ⟨hle, by rwa [List.getElem?_append_left hlt] at hv⟩
    · rw [List.getElem?_append_right hge] at hv
      exact .inr ⟨by omega, by rwa [show a - (r.start + r.data.length)
        = a - r.start - r.data.length by omega]⟩
  · intro h
    rcases h with ⟨hle, hv⟩ | ⟨hle, hv⟩
    · obtain ⟨hlt, -⟩ := List.getElem?_eq_some_iff.mp hv
      exact ⟨hle, by rwa [List.getElem?_append_left hlt]⟩
    · refine ⟨by omega, ?_⟩
      rw [List.getElem?_append_right (by omega)]
      rwa [show a - r.start - r.data.length = a - (r.start + r.data.length) by omega]

end Run

/-- Add a run after those collected so far. -/
def pushRun (acc : List (Run α)) (r : Run α) : Option (List (Run α)) :=
  match acc.getLast? with
  | some last =>
      if r.start = last.stop then some (acc.dropLast ++ [last.extend r.data])
      else if r.start < last.stop then none
      else some (acc ++ [r])
  | none => some (acc ++ [r])

/-- Coalesce runs, in the order given. -/
def coalesce (rs : List (Run α)) : Option (List (Run α)) := rs.foldlM pushRun []

@[simp] theorem pushRun_nil (r : Run α) : pushRun [] r = some [r] := rfl

theorem pushRun_concat (init : List (Run α)) (last r : Run α) :
    pushRun (init ++ [last]) r =
      if r.start = last.stop then some (init ++ [last.extend r.data])
      else if r.start < last.stop then none
      else some (init ++ [last, r]) := by
  simp [pushRun]

/-- A run past all those collected opens a new one. -/
theorem pushRun_of_gap {out : List (Run α)} {r : Run α} (h : ∀ q ∈ out, q.stop < r.start) :
    pushRun out r = some (out ++ [r]) := by
  rcases List.eq_nil_or_concat' out with rfl | ⟨init, last, rfl⟩
  · rfl
  · have hlast := h last (by simp)
    rw [pushRun_concat, if_neg (by omega), if_neg (by omega)]
    simp

@[simp] theorem coalesce_nil : coalesce ([] : List (Run α)) = some [] := rfl

theorem coalesce_concat (rs : List (Run α)) (r : Run α) :
    coalesce (rs ++ [r]) = (coalesce rs).bind fun acc => pushRun acc r := by
  simp [coalesce, List.foldlM_append]

/-- A measure of data that a concatenation does not exceed is not exceeded by
coalescing. By induction from the end of the list. -/
theorem sum_coalesce_le {g : List α → Nat} (hg : ∀ l l', g (l ++ l') ≤ g l + g l')
    {rs out : List (Run α)} (h : coalesce rs = some out) :
    (out.map fun r => g r.data).sum ≤ (rs.map fun r => g r.data).sum := by
  induction rs using List.reverseRecOn generalizing out with
  | nil =>
      obtain rfl := Option.some.inj h
      exact Nat.le_refl _
  | append_singleton rs r ih =>
      rw [coalesce_concat] at h
      obtain ⟨acc, hacc, hpush⟩ := Option.bind_eq_some_iff.mp h
      have hrest := ih hacc
      rw [List.map_append, List.sum_append]
      rcases List.eq_nil_or_concat' acc with rfl | ⟨init, last, rfl⟩
      · obtain rfl := Option.some.inj hpush
        simp
      · have hlast := hg last.data r.data
        simp only [List.map_append, List.map_cons, List.map_nil, List.sum_append,
          List.sum_singleton] at hrest ⊢
        rw [pushRun_concat] at hpush
        split at hpush
        · obtain rfl := Option.some.inj hpush
          simp only [List.map_append, List.map_cons, List.map_nil, List.sum_append,
            List.sum_singleton, Run.extend_data]
          omega
        · split at hpush
          · simp at hpush
          · obtain rfl := Option.some.inj hpush
            simp only [List.map_append, List.map_cons, List.map_nil, List.sum_append,
              List.sum_cons, List.sum_nil]
            omega

/-- Each run ends strictly before the next one starts. -/
def Separated (rs : List (Run α)) : Prop := rs.Pairwise fun a b => a.stop < b.start

/-- What coalescing `rs` to `out` guarantees. -/
structure Coalesced (rs out : List (Run α)) : Prop where
  /-- There is a gap between neighbours. -/
  separated : Separated out
  /-- The output holds exactly what the input holds. -/
  holds : ∀ a v, (∃ s ∈ out, s.Holds a v) ↔ ∃ r ∈ rs, r.Holds a v
  /-- The data is that of the input, in order. -/
  data : out.flatMap Run.data = rs.flatMap Run.data
  /-- Every input run lies inside an output run. -/
  inside : ∀ r ∈ rs, ∃ s ∈ out, s.start ≤ r.start ∧ r.stop ≤ s.stop
  /-- An output run starts where some input run does. -/
  start_mem : ∀ s ∈ out, ∃ r ∈ rs, s.start = r.start
  /-- An output run ends where some input run does. -/
  stop_mem : ∀ s ∈ out, ∃ r ∈ rs, s.stop = r.stop
  /-- The last output run ends where the last input run does. -/
  last_stop : out.getLast?.map Run.stop = rs.getLast?.map Run.stop

theorem Coalesced.nil : Coalesced ([] : List (Run α)) [] :=
  ⟨List.Pairwise.nil, by simp, rfl, by simp, by simp, by simp, rfl⟩

/-- The output covers exactly what the input covers. -/
theorem Coalesced.covers {rs out : List (Run α)} (h : Coalesced rs out) (a : Nat) :
    (∃ s ∈ out, s.Covers a) ↔ ∃ r ∈ rs, r.Covers a := by
  simp only [Run.covers_iff_holds]
  constructor
  · intro h
    obtain ⟨s, hs, v, hv⟩ := h
    obtain ⟨r, hr, hrv⟩ := (h.holds a v).mp ⟨s, hs, hv⟩
    exact ⟨r, hr, v, hrv⟩
  · intro h
    obtain ⟨r, hr, v, hv⟩ := h
    obtain ⟨s, hs, hsv⟩ := (h.holds a v).mpr ⟨r, hr, hv⟩
    exact ⟨s, hs, v, hsv⟩

/-- The runs before the last one end before it starts. -/
theorem Separated.of_concat {rs : List (Run α)} {r : Run α} (h : Separated (rs ++ [r])) :
    Separated rs ∧ ∀ q ∈ rs, q.stop < r.start := by
  obtain ⟨hrs, -, hgap⟩ := List.pairwise_append.mp h
  exact ⟨hrs, fun q hq => hgap q hq r (by simp)⟩

theorem Separated.concat {rs : List (Run α)} {r : Run α} (h : Separated rs)
    (hgap : ∀ q ∈ rs, q.stop < r.start) : Separated (rs ++ [r]) :=
  List.pairwise_append.mpr ⟨h, List.pairwise_singleton _ _, fun q hq r' hr' => by
    rw [List.mem_singleton.mp hr']
    exact hgap q hq⟩

/-- Two runs of a separated list that touch at an address are the same. -/
theorem Separated.eq_of_touch {rs : List (Run α)} (h : Separated rs) {s t : Run α} {a : Nat}
    (hs : s ∈ rs) (ht : t ∈ rs) (hsa : s.start ≤ a ∧ a ≤ s.stop) (hta : t.start ≤ a ∧ a ≤ t.stop) :
    s = t := by
  induction rs with
  | nil => simp at hs
  | cons r rs ih =>
      obtain ⟨hgap, hrs⟩ := List.pairwise_cons.mp h
      rcases List.mem_cons.mp hs with rfl | hs' <;> rcases List.mem_cons.mp ht with rfl | ht'
      · rfl
      · have := hgap t ht'
        omega
      · have := hgap s hs'
        omega
      · exact ih hrs hs' ht'

/-- Extending the last run by one that starts at its end. -/
theorem Coalesced.extend {rs init : List (Run α)} {last r : Run α}
    (h : Coalesced rs (init ++ [last])) (hr : r.start = last.stop) :
    Coalesced (rs ++ [r]) (init ++ [last.extend r.data]) := by
  obtain ⟨hsep, hgap⟩ := h.separated.of_concat
  have hrun : Run.mk last.stop r.data = r := by rw [← hr]
  have hstop : (last.extend r.data).stop = r.stop := by
    rw [Run.extend_stop, ← hr]
    rfl
  constructor
  case separated => exact hsep.concat hgap
  case holds =>
    intro a v
    have hold := h.holds a v
    simp only [List.mem_append, List.mem_singleton, or_and_right, exists_or, exists_eq_left,
      Run.holds_extend, hrun] at hold ⊢
    rw [← or_assoc, hold]
  case data =>
    have hdata := h.data
    simp only [List.flatMap_append, List.flatMap_singleton, Run.extend_data] at hdata ⊢
    rw [← List.append_assoc, hdata]
  case inside =>
    intro q hq
    rcases List.mem_append.mp hq with hq | hq
    · obtain ⟨s, hs, hlo, hhi⟩ := h.inside q hq
      rcases List.mem_append.mp hs with hs | hs
      · exact ⟨s, List.mem_append_left _ hs, hlo, hhi⟩
      · obtain rfl := List.mem_singleton.mp hs
        refine ⟨s.extend r.data, by simp, hlo, ?_⟩
        rw [Run.extend_stop]
        exact Nat.le_add_right_of_le hhi
    · obtain rfl := List.mem_singleton.mp hq
      refine ⟨last.extend q.data, by simp, ?_, hstop.ge⟩
      rw [Run.extend_start, hr]
      exact last.start_le_stop
  case start_mem =>
    intro s hs
    rcases List.mem_append.mp hs with hs | hs
    · obtain ⟨q, hq, heq⟩ := h.start_mem s (List.mem_append_left _ hs)
      exact ⟨q, List.mem_append_left _ hq, heq⟩
    · obtain ⟨q, hq, heq⟩ := h.start_mem last (by simp)
      exact ⟨q, List.mem_append_left _ hq, by rw [List.mem_singleton.mp hs]; exact heq⟩
  case stop_mem =>
    intro s hs
    rcases List.mem_append.mp hs with hs | hs
    · obtain ⟨q, hq, heq⟩ := h.stop_mem s (List.mem_append_left _ hs)
      exact ⟨q, List.mem_append_left _ hq, heq⟩
    · exact ⟨r, by simp, by rw [List.mem_singleton.mp hs]; exact hstop⟩
  case last_stop => simp [hstop]

/-- Opening a new run past the last one. -/
theorem Coalesced.open {rs out : List (Run α)} {r : Run α} (h : Coalesced rs out)
    (hgap : ∀ q ∈ out, q.stop < r.start) : Coalesced (rs ++ [r]) (out ++ [r]) := by
  constructor
  case separated => exact h.separated.concat hgap
  case holds =>
    intro a v
    have hold := h.holds a v
    simp only [List.mem_append, List.mem_singleton, or_and_right, exists_or, exists_eq_left]
    rw [hold]
  case data => simp only [List.flatMap_append, h.data]
  case inside =>
    intro q hq
    rcases List.mem_append.mp hq with hq | hq
    · obtain ⟨s, hs, hin⟩ := h.inside q hq
      exact ⟨s, List.mem_append_left _ hs, hin⟩
    · obtain rfl := List.mem_singleton.mp hq
      exact ⟨q, by simp, le_rfl, le_rfl⟩
  case start_mem =>
    intro s hs
    rcases List.mem_append.mp hs with hs | hs
    · obtain ⟨q, hq, heq⟩ := h.start_mem s hs
      exact ⟨q, List.mem_append_left _ hq, heq⟩
    · exact ⟨s, List.mem_append_right _ hs, rfl⟩
  case stop_mem =>
    intro s hs
    rcases List.mem_append.mp hs with hs | hs
    · obtain ⟨q, hq, heq⟩ := h.stop_mem s hs
      exact ⟨q, List.mem_append_left _ hq, heq⟩
    · exact ⟨s, List.mem_append_right _ hs, rfl⟩
  case last_stop => simp

/-- One push keeps the guarantee. -/
theorem Coalesced.push {rs out out' : List (Run α)} {r : Run α} (h : Coalesced rs out)
    (hpush : pushRun out r = some out') : Coalesced (rs ++ [r]) out' := by
  rcases List.eq_nil_or_concat' out with rfl | ⟨init, last, rfl⟩
  · obtain rfl : [r] = out' := by simpa using hpush
    exact h.open (by simp)
  · rw [pushRun_concat] at hpush
    split at hpush
    · next heq =>
      obtain rfl := Option.some.inj hpush
      exact h.extend heq
    · next hne =>
      split at hpush
      · simp at hpush
      · next hnlt =>
        obtain rfl := Option.some.inj hpush
        have hlast : last.stop < r.start := by omega
        obtain ⟨-, hgap⟩ := h.separated.of_concat
        have hopen := h.open (r := r) fun q hq => by
          rcases List.mem_append.mp hq with hq | hq
          · exact ((hgap q hq).trans_le last.start_le_stop).trans hlast
          · rwa [List.mem_singleton.mp hq]
        simpa using hopen

theorem coalesce_coalesced {rs out : List (Run α)} (h : coalesce rs = some out) :
    Coalesced rs out := by
  induction rs using List.reverseRecOn generalizing out with
  | nil =>
      obtain rfl : [] = out := by simpa using h
      exact .nil
  | append_singleton rs r ih =>
      rw [coalesce_concat] at h
      obtain ⟨acc, hacc, hpush⟩ := Option.bind_eq_some_iff.mp h
      exact (ih hacc).push hpush

/-- A run with data covers an address exactly where it has a value. -/
theorem Run.covers_start {r : Run α} (h : r.data ≠ []) : r.Covers r.start :=
  ⟨Nat.le_refl _, lt_of_le_of_ne r.start_le_stop fun heq =>
    h (Run.stop_eq_start_iff.mp heq.symm)⟩

/-- No output run is without data exactly if every input run without data touches
one with data. -/
theorem Coalesced.data_ne_nil_iff {rs out : List (Run α)} (h : Coalesced rs out) :
    (∀ s ∈ out, s.data ≠ []) ↔
      ∀ r ∈ rs, r.data = [] → ∃ q ∈ rs, q.data ≠ [] ∧ q.start ≤ r.start ∧ r.start ≤ q.stop := by
  constructor
  · intro hne r hr hnil
    obtain ⟨s, hs, hlo, hhi⟩ := h.inside r hr
    have hempty := Run.stop_eq_start_iff.mpr hnil
    have hcovers := Run.covers_start (hne s hs)
    by_cases hlt : r.start < s.stop
    · -- the byte at the start of `r` comes from some input run
      obtain ⟨q, hq, hqr⟩ := (h.covers r.start).mp ⟨s, hs, hlo, hlt⟩
      refine ⟨q, hq, fun hq0 => ?_, hqr.1, hqr.2.le⟩
      have := Run.stop_eq_start_iff.mpr hq0
      have := hqr.1
      have := hqr.2
      omega
    · -- `r` sits at the end of `s`, and the last byte of `s` comes from some input run
      have hlast : s.Covers (s.stop - 1) := ⟨by have := hcovers.2; omega, by
        have := hcovers.2
        omega⟩
      obtain ⟨q, hq, hqs⟩ := (h.covers (s.stop - 1)).mp ⟨s, hs, hlast⟩
      have := hqs.1
      have := hqs.2
      have := hcovers.2
      exact ⟨q, hq, fun hq0 => by have := Run.stop_eq_start_iff.mpr hq0; omega, by omega, by omega⟩
  · intro htouch s hs hnil
    have hempty := Run.stop_eq_start_iff.mpr hnil
    -- some input run with data touches the start of `s`
    obtain ⟨q, hq, hqne, hlo, hhi⟩ : ∃ q ∈ rs, q.data ≠ [] ∧ q.start ≤ s.start ∧
        s.start ≤ q.stop := by
      obtain ⟨r, hr, hstart⟩ := h.start_mem s hs
      by_cases hr0 : r.data = []
      · rw [hstart]
        exact htouch r hr hr0
      · exact ⟨r, hr, hr0, hstart.ge, hstart ▸ r.start_le_stop⟩
    obtain ⟨t, ht, htlo, hthi⟩ := h.inside q hq
    have htouch' : t.start ≤ s.start ∧ s.start ≤ t.stop := ⟨htlo.trans hlo, hhi.trans hthi⟩
    obtain rfl := h.separated.eq_of_touch hs ht ⟨Nat.le_refl _, s.start_le_stop⟩ htouch'
    have := (Run.covers_start hqne).2
    omega

/-- If one list of runs covers what another one does, a run of it that shares an
address with a run of the other one contains it. -/
theorem Separated.contains {rs qs : List (Run α)} (hqs : Separated qs)
    (h : ∀ a, (∃ r ∈ rs, r.Covers a) → ∃ q ∈ qs, q.Covers a) {r q : Run α} {a : Nat}
    (hr : r ∈ rs) (hq : q ∈ qs) (hra : r.Covers a) (hqa : q.Covers a) :
    q.start ≤ r.start ∧ r.stop ≤ q.stop := by
  obtain ⟨hr₁, hr₂⟩ := hra
  obtain ⟨hq₁, hq₂⟩ := hqa
  constructor
  · by_contra hlt
    obtain ⟨t, ht, ht₁, ht₂⟩ := h (q.start - 1) ⟨r, hr, by omega, by omega⟩
    obtain rfl := hqs.eq_of_touch hq ht ⟨Nat.le_refl q.start, by omega⟩ ⟨by omega, by omega⟩
    omega
  · by_contra hlt
    obtain ⟨t, ht, ht₁, ht₂⟩ := h q.stop ⟨r, hr, by omega, by omega⟩
    obtain rfl := hqs.eq_of_touch hq ht ⟨by omega, Nat.le_refl q.stop⟩ ⟨by omega, by omega⟩
    omega

/-- A value that a separated list holds at an address is held by the run that
reaches the address. -/
theorem Separated.holds_of_holds {rs : List (Run α)} (hrs : Separated rs) {r : Run α} (hr : r ∈ rs)
    {a : Nat} {v : α} (h : ∃ t ∈ rs, t.Holds a v) (hlo : r.start ≤ a) (hhi : a ≤ r.stop) :
    r.Holds a v := by
  obtain ⟨t, ht, htv⟩ := h
  have hct := htv.covers
  obtain rfl := hrs.eq_of_touch hr ht ⟨hlo, hhi⟩ ⟨hct.1, hct.2.le⟩
  exact htv

/-- A run with data of a separated list is in any other that holds the same. -/
theorem Separated.mem_of_holds {rs qs : List (Run α)} (hrs : Separated rs) (hqs : Separated qs)
    (h : ∀ a v, (∃ r ∈ rs, r.Holds a v) ↔ ∃ q ∈ qs, q.Holds a v) {r : Run α} (hr : r ∈ rs)
    (hne : r.data ≠ []) : r ∈ qs := by
  have hcov : ∀ a, (∃ r ∈ rs, r.Covers a) ↔ ∃ q ∈ qs, q.Covers a := by
    intro a
    have hvalue : ∀ xs : List (Run α),
        (∃ x ∈ xs, x.Covers a) ↔ ∃ v, ∃ x ∈ xs, x.Holds a v := by
      intro xs
      simp only [Run.covers_iff_holds]
      constructor
      · intro hx
        obtain ⟨x, hx, v, hv⟩ := hx
        exact ⟨v, x, hx, hv⟩
      · intro hv
        obtain ⟨v, x, hx, hv⟩ := hv
        exact ⟨x, hx, v, hv⟩
    rw [hvalue rs, hvalue qs]
    exact exists_congr (h a)
  -- the run that reaches its start has the same ends
  have hra := Run.covers_start hne
  obtain ⟨q, hq, hqa⟩ := (hcov r.start).mp ⟨r, hr, hra⟩
  have hrq := hqs.contains (fun a => (hcov a).mp) hr hq hra hqa
  have hqr := hrs.contains (fun a => (hcov a).mpr) hq hr hqa hra
  have hstart : r.start = q.start := by omega
  have hdata : r.data = q.data := by
    refine List.ext_getElem? fun i => Option.ext fun v => ?_
    have hr' : r.data[i]? = some v ↔ r.Holds (r.start + i) v := by simp [Run.Holds]
    have hq' : q.data[i]? = some v ↔ q.Holds (r.start + i) v := by simp [Run.Holds, hstart]
    rw [hr', hq']
    constructor
    · intro hv
      have hc := hv.covers
      exact hqs.holds_of_holds hq ((h _ v).mp ⟨r, hr, hv⟩) (by omega) (hc.2.le.trans hrq.2)
    · intro hv
      have hc := hv.covers
      exact hrs.holds_of_holds hr ((h _ v).mpr ⟨q, hq, hv⟩) (by omega) (hc.2.le.trans hqr.2)
  have heq : r = q := by
    cases r
    cases q
    rw [Run.mk.injEq]
    exact ⟨hstart, hdata⟩
  rwa [heq]

/-- A separated list of runs that all have data is determined by what it holds.
-/
theorem Separated.eq_of_holds {rs qs : List (Run α)} (hrs : Separated rs) (hqs : Separated qs)
    (hr : ∀ r ∈ rs, r.data ≠ []) (hq : ∀ q ∈ qs, q.data ≠ [])
    (h : ∀ a v, (∃ r ∈ rs, r.Holds a v) ↔ ∃ q ∈ qs, q.Holds a v) : rs = qs := by
  have hirrefl : Std.Irrefl fun a b : Run α => a.stop < b.start :=
    ⟨fun a hlt => absurd a.start_le_stop (Nat.not_le.mpr hlt)⟩
  have hantisymm : Std.Antisymm fun a b : Run α => a.stop < b.start :=
    ⟨fun a b hab hba => by
      have := a.start_le_stop
      have := b.start_le_stop
      omega⟩
  refine List.Pairwise.eq_of_mem_iff hrs hqs fun r => ⟨fun hmem => ?_, fun hmem => ?_⟩
  · exact hrs.mem_of_holds hqs h hmem (hr r hmem)
  · exact hqs.mem_of_holds hrs (fun a v => (h a v).symm) hmem (hq r hmem)

/-! ### When coalescing succeeds -/

/-- A push is refused only below the end of the last run. -/
theorem pushRun_eq_none_iff {out : List (Run α)} {r : Run α} :
    pushRun out r = none ↔ ∃ last, out.getLast? = some last ∧ r.start < last.stop := by
  rcases List.eq_nil_or_concat' out with rfl | ⟨init, last, rfl⟩
  · simp
  · rw [pushRun_concat]
    split
    · next heq => simp [heq]
    · split <;> simp_all

/-- In a list where every run starts at or above the end of every earlier one,
the last run has the highest end. -/
theorem stop_le_of_ascending {rs : List (Run α)} (h : rs.Pairwise fun a b => a.stop ≤ b.start)
    {last q : Run α} (hlast : rs.getLast? = some last) (hq : q ∈ rs) : q.stop ≤ last.stop := by
  rcases List.eq_nil_or_concat' rs with rfl | ⟨init, l, rfl⟩
  · simp at hq
  · obtain rfl : l = last := by simpa using hlast
    rcases List.mem_append.mp hq with hq | hq
    · have := (List.pairwise_append.mp h).2.2 q hq l (by simp)
      exact this.trans l.start_le_stop
    · rw [List.mem_singleton.mp hq]

/-- Coalescing succeeds exactly when every run starts at or above the end of
every earlier one. -/
theorem coalesce_eq_some_iff {rs : List (Run α)} :
    (∃ out, coalesce rs = some out) ↔ rs.Pairwise fun a b => a.stop ≤ b.start := by
  induction rs using List.reverseRecOn with
  | nil => simp
  | append_singleton rs r ih =>
      rw [coalesce_concat, List.pairwise_append]
      constructor
      · intro h
        obtain ⟨out', h⟩ := h
        obtain ⟨out, hout, hpush⟩ := Option.bind_eq_some_iff.mp h
        have hasc := ih.mp ⟨out, hout⟩
        refine ⟨hasc, List.pairwise_singleton _ _, fun q hq r' hr' => ?_⟩
        obtain rfl := List.mem_singleton.mp hr'
        obtain ⟨last, hlast⟩ : ∃ last, rs.getLast? = some last :=
          ⟨_, List.getLast?_eq_getLast_of_ne_nil (List.ne_nil_of_mem hq)⟩
        have hstop := (coalesce_coalesced hout).last_stop
        rw [hlast] at hstop
        obtain ⟨s, hs, hss⟩ := Option.map_eq_some_iff.mp hstop
        by_contra hlt
        have hnone : pushRun out r' = none := pushRun_eq_none_iff.mpr
          ⟨s, hs, by have := stop_le_of_ascending hasc hlast hq; omega⟩
        rw [hnone] at hpush
        exact absurd hpush (by simp)
      · intro h
        obtain ⟨hasc, -, hr⟩ := h
        obtain ⟨out, hout⟩ := ih.mpr hasc
        rw [hout]
        cases hpush : pushRun out r with
        | some out' => exact ⟨out', hpush⟩
        | none =>
            obtain ⟨s, hs, hlt⟩ := pushRun_eq_none_iff.mp hpush
            obtain ⟨q, hq, hsq⟩ := (coalesce_coalesced hout).stop_mem s (List.mem_of_getLast? hs)
            have := hr q hq r (by simp)
            omega

/-- After coalescing `rs`, a push is refused exactly when the new run starts
below the end of some run of `rs`. -/
theorem Coalesced.pushRun_eq_none_iff {rs out : List (Run α)} {r : Run α}
    (h : coalesce rs = some out) : pushRun out r = none ↔ ∃ q ∈ rs, r.start < q.stop := by
  have hasc := coalesce_eq_some_iff.mp ⟨out, h⟩
  have hall : (∃ out', coalesce (rs ++ [r]) = some out') ↔ ∀ q ∈ rs, q.stop ≤ r.start := by
    rw [coalesce_eq_some_iff, List.pairwise_append]
    simp [hasc]
  rw [coalesce_concat, h, Option.bind_some] at hall
  constructor
  · intro hnone
    by_contra hno
    obtain ⟨out', hout'⟩ := hall.mpr fun q hq => by
      by_contra hlt
      exact hno ⟨q, hq, by omega⟩
    rw [hnone] at hout'
    exact absurd hout' (by simp)
  · intro h
    obtain ⟨q, hq, hlt⟩ := h
    cases hpush : pushRun out r with
    | none => rfl
    | some out' =>
        have := hall.mp ⟨out', hpush⟩ q hq
        omega

/-- Of runs in address order that all have data, no two start at the same
address. -/
theorem eq_of_start_eq {rs : List (Run α)} (h : rs.Pairwise fun a b => a.stop ≤ b.start)
    (hne : ∀ r ∈ rs, r.data ≠ []) {p q : Run α} (hp : p ∈ rs) (hq : q ∈ rs)
    (heq : p.start = q.start) : p = q := by
  have hlt : ∀ r ∈ rs, r.start < r.stop := fun r hr =>
    lt_of_le_of_ne r.start_le_stop fun h => hne r hr (Run.stop_eq_start_iff.mp h.symm)
  induction rs with
  | nil => simp at hp
  | cons r rs ih =>
      obtain ⟨hr, hrs⟩ := List.pairwise_cons.mp h
      rw [List.forall_mem_cons] at hne hlt
      rcases List.mem_cons.mp hp with rfl | hp' <;> rcases List.mem_cons.mp hq with rfl | hq'
      · rfl
      · have := hr q hq'
        omega
      · have := hr p hp'
        omega
      · exact ih hrs hne.2 hp' hq' hlt.2

/-! ### Pieces laid end to end -/

/-- Pieces of data laid end to end from `start` on. -/
def layOut (start : Nat) : List (List α) → List (Run α)
  | [] => []
  | d :: ds => ⟨start, d⟩ :: layOut (start + d.length) ds

theorem start_le_of_mem_layOut {start : Nat} {ds : List (List α)} {r : Run α}
    (h : r ∈ layOut start ds) : start ≤ r.start := by
  induction ds generalizing start with
  | nil => simp [layOut] at h
  | cons d ds ih =>
      rcases List.mem_cons.mp h with rfl | h
      · exact Nat.le_refl _
      · exact (Nat.le_add_right _ _).trans (ih h)

/-- Pieces laid end to end do not overlap. -/
theorem layOut_ascending (start : Nat) (ds : List (List α)) :
    (layOut start ds).Pairwise fun a b => a.stop ≤ b.start := by
  induction ds generalizing start with
  | nil => exact List.Pairwise.nil
  | cons d ds ih => exact List.pairwise_cons.mpr ⟨fun r hr => start_le_of_mem_layOut hr, ih _⟩

/-- The pieces end by the end of the whole. -/
theorem stop_le_of_mem_layOut {start : Nat} {ds : List (List α)} {r : Run α}
    (h : r ∈ layOut start ds) : r.stop ≤ (Run.mk start ds.flatten).stop := by
  induction ds generalizing start with
  | nil => simp [layOut] at h
  | cons d ds ih =>
      simp only [Run.stop, List.flatten_cons, List.length_append]
      rcases List.mem_cons.mp h with rfl | h
      · exact Nat.add_le_add_left (Nat.le_add_right _ _) _
      · have := ih h
        simp only [Run.stop] at this
        omega

theorem data_of_mem_layOut {start : Nat} {ds : List (List α)} {r : Run α}
    (h : r ∈ layOut start ds) : r.data ∈ ds := by
  induction ds generalizing start with
  | nil => simp [layOut] at h
  | cons d ds ih =>
      rcases List.mem_cons.mp h with rfl | h
      · exact List.mem_cons_self ..
      · exact List.mem_cons_of_mem _ (ih h)

@[simp] theorem map_data_layOut (start : Nat) (ds : List (List α)) :
    (layOut start ds).map Run.data = ds := by
  induction ds generalizing start with
  | nil => rfl
  | cons d ds ih => rw [layOut, List.map_cons, ih]

/-- Together the pieces hold what the whole holds. -/
theorem holds_layOut (start : Nat) (ds : List (List α)) (a : Nat) (v : α) :
    (∃ r ∈ layOut start ds, r.Holds a v) ↔ (Run.mk start ds.flatten).Holds a v := by
  induction ds generalizing start with
  | nil => simp [layOut, Run.Holds]
  | cons d ds ih =>
      rw [show Run.mk start (d :: ds).flatten = (Run.mk start d).extend ds.flatten from rfl,
        Run.holds_extend, ← @ih (Run.mk start d).stop]
      simp only [layOut, List.mem_cons, or_and_right, exists_or, exists_eq_left]
      rfl

/-- Pieces laid end to end after the last run extend it. -/
theorem foldlM_pushRun_layOut (init : List (Run α)) (last : Run α) (ds : List (List α)) :
    (layOut last.stop ds).foldlM pushRun (init ++ [last]) =
      some (init ++ [last.extend ds.flatten]) := by
  induction ds generalizing last with
  | nil => simp [layOut, Run.extend]
  | cons d ds ih =>
      rw [layOut, List.foldlM_cons, pushRun_concat, if_pos rfl]
      have hstop : last.stop + d.length = (last.extend d).stop := (Run.extend_stop last d).symm
      rw [hstop]
      simp only [Option.bind_eq_bind, Option.bind_some]
      rw [ih (last.extend d)]
      simp [Run.extend]

/-- Coalescing pieces of separated runs gives back the runs, however each of
them was cut. -/
theorem coalesce_layOut (cuts : List (Nat × List (List α))) (hne : ∀ c ∈ cuts, c.2 ≠ [])
    (hsep : Separated (cuts.map fun c => ⟨c.1, c.2.flatten⟩)) :
    coalesce (cuts.flatMap fun c => layOut c.1 c.2) =
      some (cuts.map fun c => ⟨c.1, c.2.flatten⟩) := by
  induction cuts using List.reverseRecOn with
  | nil => rfl
  | append_singleton cuts c ih =>
      rw [List.map_append, List.map_singleton] at hsep
      obtain ⟨hsep', hgap⟩ := hsep.of_concat
      have ih' := ih (fun c' hc' => hne c' (List.mem_append_left _ hc')) hsep'
      obtain ⟨d, ds, hc⟩ := List.exists_cons_of_ne_nil (hne c (by simp))
      unfold coalesce at ih' ⊢
      simp only [List.flatMap_append, List.flatMap_singleton, List.foldlM_append, ih',
        Option.bind_eq_bind, Option.bind_some, hc, layOut, List.foldlM_cons]
      -- the first piece opens a new run, the others extend it
      rw [pushRun_of_gap (r := ⟨c.1, d⟩) hgap]
      simp only [Option.bind_some]
      exact (foldlM_pushRun_layOut _ ⟨c.1, d⟩ ds).trans (by simp [Run.extend, hc])

/-! ### Lists one after the other -/

/-- Pushing a run and then one that starts at its end is pushing both at once. -/
theorem pushRun_extend (acc : List (Run α)) {last r : Run α} (h : r.start = last.stop) :
    (pushRun acc last).bind (fun acc => pushRun acc r) = pushRun acc (last.extend r.data) := by
  have hopen : ∀ init : List (Run α),
      pushRun (init ++ [last]) r = some (init ++ [last.extend r.data]) := fun init => by
    rw [pushRun_concat, if_pos h]
  rcases List.eq_nil_or_concat' acc with rfl | ⟨init, l, rfl⟩
  · exact hopen []
  · rw [pushRun_concat, pushRun_concat, Run.extend_start]
    split
    · next heq =>
        have hstop : r.start = (l.extend last.data).stop := by
          rw [h, Run.extend_stop, ← heq]
          rfl
        simp only [Option.bind_some]
        rw [pushRun_concat, if_pos hstop]
        simp [Run.extend]
    · split
      · rfl
      · simpa using hopen (init ++ [l])

/-- Whatever is there already, pushing runs one by one is pushing what they
coalesce to. By induction from the end of the list. -/
theorem foldlM_pushRun_coalesce {rs out : List (Run α)} (h : coalesce rs = some out)
    (acc : List (Run α)) : rs.foldlM pushRun acc = out.foldlM pushRun acc := by
  induction rs using List.reverseRecOn generalizing out with
  | nil =>
      obtain rfl := Option.some.inj h
      rfl
  | append_singleton rs r ih =>
      rw [coalesce_concat] at h
      obtain ⟨mid, hmid, hpush⟩ := Option.bind_eq_some_iff.mp h
      have hrs := ih hmid
      rw [List.foldlM_append, hrs]
      rcases List.eq_nil_or_concat' mid with rfl | ⟨init, last, rfl⟩
      · obtain rfl := Option.some.inj hpush
        rfl
      · rw [pushRun_concat] at hpush
        split at hpush
        · next heq =>
            obtain rfl := Option.some.inj hpush
            simp only [List.foldlM_append, List.foldlM_cons, List.foldlM_nil, bind_pure, bind_assoc]
            congr 1
            funext acc'
            exact pushRun_extend acc' heq
        · split at hpush
          · simp at hpush
          · obtain rfl := Option.some.inj hpush
            rw [← List.foldlM_append, List.append_assoc]
            rfl

/-- Coalescing one list after another is pushing what the second coalesces to
onto what the first does. -/
theorem coalesce_append {rs qs out out' : List (Run α)} (hrs : coalesce rs = some out)
    (hqs : coalesce qs = some out') : coalesce (rs ++ qs) = out'.foldlM pushRun out := by
  unfold coalesce at hrs ⊢
  rw [List.foldlM_append, hrs]
  exact foldlM_pushRun_coalesce hqs out

/-- The output starts where the input does. -/
theorem coalesce_head {r : Run α} {rs out : List (Run α)} (h : coalesce (r :: rs) = some out) :
    ∃ s ss, out = s :: ss ∧ s.start = r.start := by
  have hco := coalesce_coalesced h
  have hasc := coalesce_eq_some_iff.mp ⟨out, h⟩
  obtain ⟨s', hs', hle, -⟩ := hco.inside r (List.mem_cons_self ..)
  obtain ⟨s, ss, rfl⟩ := List.exists_cons_of_ne_nil (List.ne_nil_of_mem hs')
  obtain ⟨q, hq, hstart⟩ := hco.start_mem s (List.mem_cons_self ..)
  refine ⟨s, ss, rfl, ?_⟩
  have hlow : s.start ≤ s'.start := by
    rcases List.mem_cons.mp hs' with rfl | hs'
    · exact Nat.le_refl _
    · have := (List.pairwise_cons.mp hco.separated).1 s' hs'
      exact s.start_le_stop.trans this.le
  have hhigh : r.start ≤ q.start := by
    rcases List.mem_cons.mp hq with rfl | hq
    · exact Nat.le_refl _
    · exact r.start_le_stop.trans ((List.pairwise_cons.mp hasc).1 q hq)
  omega

end Lib
