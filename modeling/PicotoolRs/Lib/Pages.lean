import PicotoolRs.Lib.Chunks

/-!
# PicotoolRs.Lib.Pages

Runs of whole pages.

Coalescing whole pages gives whole pages (`Coalesced.paged`), and so does
cutting them into chunks of whole pages (`paged_layOut`, `dvd_length_of_mem_chunks`).
Runs of whole pages that do not overlap do not share a page either.
-/

namespace Lib

variable {α : Type} {m : Nat}

/-- The run consists of whole pages of `m` addresses. -/
structure Run.Paged (m : Nat) (r : Run α) : Prop where
  start : m ∣ r.start
  length : m ∣ r.data.length

instance (m : Nat) (r : Run α) : Decidable (r.Paged m) :=
  decidable_of_iff (m ∣ r.start ∧ m ∣ r.data.length) ⟨fun h => ⟨h.1, h.2⟩, fun h => ⟨h.1, h.2⟩⟩

theorem Run.Paged.stop {r : Run α} (h : r.Paged m) : m ∣ r.stop := Nat.dvd_add h.start h.length

/-- The run has an address in the page of this number. -/
def Run.Touches (m : Nat) (r : Run α) (page : Nat) : Prop := ∃ a, r.Covers a ∧ a / m = page

/-- Whole pages below a run are not pages of it. -/
theorem Run.Paged.not_touches (hm : 0 < m) {r q : Run α} (h : r.Paged m) (hle : r.stop ≤ q.start)
    {page : Nat} (hr : r.Touches m page) : ¬ q.Touches m page := by
  intro hq
  obtain ⟨a, ⟨-, ha⟩, rfl⟩ := hr
  obtain ⟨b, ⟨hb, -⟩, hpage⟩ := hq
  obtain ⟨k, hk⟩ := h.stop
  have hlow : a / m < k := (Nat.div_lt_iff_lt_mul hm).mpr (by rw [Nat.mul_comm, ← hk]; exact ha)
  have hhigh : k ≤ b / m := (Nat.le_div_iff_mul_le hm).mpr (by rw [Nat.mul_comm, ← hk]; omega)
  omega

/-- Of a page of its own a run of whole pages has every address. -/
theorem Run.Paged.covers (hm : 0 < m) {r : Run α} (h : r.Paged m) {a : Nat}
    (ha : r.Touches m (a / m)) : r.Covers a := by
  obtain ⟨b, ⟨hlo, hhi⟩, hpage⟩ := ha
  obtain ⟨k, hk⟩ := h.start
  obtain ⟨l, hl⟩ := h.stop
  have hlow : k ≤ a / m := by
    rw [← hpage, Nat.le_div_iff_mul_le hm, Nat.mul_comm, ← hk]
    exact hlo
  have hhigh : a / m < l := by
    rw [← hpage, Nat.div_lt_iff_lt_mul hm, Nat.mul_comm, ← hl]
    exact hhi
  rw [Nat.le_div_iff_mul_le hm, Nat.mul_comm, ← hk] at hlow
  rw [Nat.div_lt_iff_lt_mul hm, Nat.mul_comm, ← hl] at hhigh
  exact ⟨hlow, hhigh⟩

/-- Coalescing keeps pages whole. -/
theorem Coalesced.paged {rs out : List (Run α)} (h : Coalesced rs out)
    (hrs : ∀ r ∈ rs, r.Paged m) {s : Run α} (hs : s ∈ out) : s.Paged m := by
  obtain ⟨r, hr, hstart⟩ := h.start_mem s hs
  obtain ⟨q, hq, hstop⟩ := h.stop_mem s hs
  have hlen : s.data.length = q.stop - r.start := by
    rw [← hstop, ← hstart, Run.stop, Nat.add_sub_cancel_left]
  refine ⟨hstart ▸ (hrs r hr).start, ?_⟩
  rw [hlen]
  exact Nat.dvd_sub (hrs q hq).stop (hrs r hr).start

/-- Data of whole pages, laid end to end from a page on. -/
theorem paged_layOut {start : Nat} {ds : List (List α)} (hstart : m ∣ start)
    (hds : ∀ d ∈ ds, m ∣ d.length) {r : Run α} (h : r ∈ layOut start ds) : r.Paged m := by
  induction ds generalizing start with
  | nil => simp [layOut] at h
  | cons d ds ih =>
      rw [List.forall_mem_cons] at hds
      rcases List.mem_cons.mp h with rfl | h
      · exact ⟨hstart, hds.1⟩
      · exact ih (Nat.dvd_add hstart hds.1) hds.2 h

/-- Chunks of whole pages, cut from whole pages; the last one too. -/
theorem dvd_length_of_mem_chunks {n : Nat} (hn : 0 < n) (hmn : m ∣ n) {l c : List α}
    (hl : m ∣ l.length) (h : c ∈ chunks n l) : m ∣ c.length := by
  induction l using chunks_induction hn with
  | nil => simp at h
  | step l hne ih =>
      rw [chunks_eq_cons hn hne] at h
      rcases List.mem_cons.mp h with rfl | h
      · rw [List.length_take]
        rcases Nat.le_total n l.length with hle | hle
        · rwa [Nat.min_eq_left hle]
        · rwa [Nat.min_eq_right hle]
      · refine ih ?_ h
        rw [List.length_drop]
        exact Nat.dvd_sub hl hmn

end Lib
