import PicotoolRs.Lib.Runs

/-!
# PicotoolRs.Lib.Chunks

Cutting a list into chunks of `n`, the last one possibly shorter, and the
same without the shorter remainder.

Recursion is on a bound for the length, so that the functions evaluate; the
lemmas are about `chunks` and never mention the bound. `map_zipIdx_chunks`
relates the two ways to say where a chunk sits: at `start + i * n` for the
chunk of index `i`, and after the chunks before it.
-/

namespace Lib

variable {α β : Type}

/-- `chunks` with a bound on the number of chunks. -/
def chunksAux (n : Nat) : Nat → List α → List (List α)
  | 0, _ => []
  | _ + 1, [] => []
  | bound + 1, x :: xs => (x :: xs).take n :: chunksAux n bound ((x :: xs).drop n)

/-- Consecutive chunks of `n` elements; the last one has what is left. -/
def chunks (n : Nat) (l : List α) : List (List α) := chunksAux n l.length l

/-- Consecutive chunks of exactly `n` elements; what is left is dropped. -/
def chunksExact (n : Nat) (l : List α) : List (List α) := chunks n (l.take (l.length / n * n))

variable {n : Nat}

/-- Any bound that is at least the length gives the same chunks. -/
theorem chunksAux_eq (hn : 0 < n) {bound bound' : Nat} {l : List α} (h : l.length ≤ bound)
    (h' : l.length ≤ bound') : chunksAux n bound l = chunksAux n bound' l := by
  induction bound generalizing bound' l with
  | zero =>
      obtain rfl := List.length_eq_zero_iff.mp (Nat.le_zero.mp h)
      cases bound' <;> rfl
  | succ bound ih =>
      cases l with
      | nil => cases bound' <;> rfl
      | cons x xs =>
          cases bound' with
          | zero => simp at h'
          | succ bound' =>
              have hlen : ((x :: xs).drop n).length ≤ xs.length := by
                rw [List.length_drop, List.length_cons]
                omega
              simp only [List.length_cons, Nat.add_le_add_iff_right] at h h'
              simp only [chunksAux]
              rw [ih (hlen.trans h) (hlen.trans h')]

@[simp] theorem chunks_nil : chunks n ([] : List α) = [] := rfl

/-- The first chunk, and the chunks of the rest. -/
theorem chunks_eq_cons (hn : 0 < n) {l : List α} (hl : l ≠ []) :
    chunks n l = l.take n :: chunks n (l.drop n) := by
  cases l with
  | nil => exact absurd rfl hl
  | cons x xs =>
      unfold chunks
      rw [List.length_cons, chunksAux]
      refine congrArg _ (chunksAux_eq hn ?_ (Nat.le_refl _))
      rw [List.length_drop, List.length_cons]
      omega

/-- Induction along the chunks of a list. -/
theorem chunks_induction (hn : 0 < n) {motive : List α → Prop} (nil : motive [])
    (step : ∀ l, l ≠ [] → motive (l.drop n) → motive l) (l : List α) : motive l := by
  induction hlen : l.length using Nat.strongRecOn generalizing l with
  | _ m ih =>
      by_cases hl : l = []
      · exact hl ▸ nil
      · have hpos := List.length_pos_of_ne_nil hl
        exact step l hl (ih _ (by rw [List.length_drop]; omega) _ rfl)

theorem flatten_chunks (hn : 0 < n) (l : List α) : (chunks n l).flatten = l := by
  induction l using chunks_induction hn with
  | nil => rfl
  | step l hl ih => rw [chunks_eq_cons hn hl, List.flatten_cons, ih, List.take_append_drop]

theorem ne_nil_of_mem_chunks (hn : 0 < n) {l c : List α} (h : c ∈ chunks n l) : c ≠ [] := by
  induction l using chunks_induction hn with
  | nil => simp at h
  | step l hl ih =>
      rw [chunks_eq_cons hn hl] at h
      rcases List.mem_cons.mp h with rfl | h
      · rw [Ne, List.take_eq_nil_iff]
        intro h
        rcases h with h0 | h0
        · omega
        · exact hl h0
      · exact ih h

theorem length_le_of_mem_chunks (hn : 0 < n) {l c : List α} (h : c ∈ chunks n l) :
    c.length ≤ n := by
  induction l using chunks_induction hn with
  | nil => simp at h
  | step l hl ih =>
      rw [chunks_eq_cons hn hl] at h
      rcases List.mem_cons.mp h with rfl | h
      · exact List.length_take_le _ _
      · exact ih h

/-- There are as many chunks as it takes to hold the list, and no more. -/
theorem length_chunks_bounds (hn : 0 < n) (l : List α) :
    l.length ≤ (chunks n l).length * n ∧ (chunks n l).length * n < l.length + n := by
  induction l using chunks_induction hn with
  | nil => simpa using hn
  | step l hl ih =>
      have hpos := List.length_pos_of_ne_nil hl
      rw [chunks_eq_cons hn hl, List.length_cons, Nat.add_mul, Nat.one_mul]
      rcases Nat.lt_or_ge n l.length with hlt | hle
      · rw [List.length_drop] at ih
        omega
      · rw [List.drop_eq_nil_of_le hle, chunks_nil, List.length_nil]
        omega

/-- Cutting a concatenation takes no more chunks than cutting its parts. -/
theorem length_chunks_append_le (hn : 0 < n) (l l' : List α) :
    (chunks n (l ++ l')).length ≤ (chunks n l).length + (chunks n l').length := by
  have h := (length_chunks_bounds hn l).1
  have h' := (length_chunks_bounds hn l').1
  have hall := (length_chunks_bounds hn (l ++ l')).2
  rw [List.length_append] at hall
  have hlt : (chunks n (l ++ l')).length * n <
      ((chunks n l).length + (chunks n l').length + 1) * n := by
    rw [Nat.add_mul, Nat.add_mul, Nat.one_mul]
    omega
  exact Nat.lt_succ_iff.mp (Nat.lt_of_mul_lt_mul_right hlt)

/-- When the length is a multiple of `n`, so is every chunk's. -/
theorem length_of_mem_chunks_of_dvd (hn : 0 < n) {l c : List α} (hd : n ∣ l.length)
    (h : c ∈ chunks n l) : c.length = n := by
  induction l using chunks_induction hn with
  | nil => simp at h
  | step l hl ih =>
      have hle : n ≤ l.length := Nat.le_of_dvd (List.length_pos_of_ne_nil hl) hd
      rw [chunks_eq_cons hn hl] at h
      rcases List.mem_cons.mp h with rfl | h
      · rw [List.length_take, Nat.min_eq_left hle]
      · exact ih (by rw [List.length_drop]; exact Nat.dvd_sub hd (Nat.dvd_refl n)) h

/-- Nothing is dropped from a whole number of chunks. -/
theorem chunksExact_eq_chunks {l : List α} (hd : n ∣ l.length) :
    chunksExact n l = chunks n l := by
  rw [chunksExact, Nat.div_mul_cancel hd, List.take_length]

/-- A concatenation of lists of length `n` is cut where they meet. -/
theorem chunks_flatten (hn : 0 < n) {ls : List (List α)} (h : ∀ l ∈ ls, l.length = n) :
    chunks n ls.flatten = ls := by
  induction ls with
  | nil => rfl
  | cons l ls ih =>
      have hlen : l.length = n := h l (List.mem_cons_self ..)
      have hne : (l :: ls).flatten ≠ [] := fun h0 => by
        have := congrArg List.length h0
        simp [hlen] at this
        omega
      rw [chunks_eq_cons hn hne, List.flatten_cons, ← hlen, List.take_left, List.drop_left, hlen,
        ih fun l' hl' => h l' (List.mem_cons_of_mem _ hl')]

/-- The chunk of index `i` sits at `start + i * n`, which is right after the
chunks before it. -/
theorem map_zipIdx_chunks (hn : 0 < n) (start : Nat) (l : List α) :
    (chunks n l).zipIdx.map (fun c => (⟨start + c.2 * n, c.1⟩ : Run α)) =
      layOut start (chunks n l) := by
  suffices h : ∀ k, ((chunks n l).zipIdx k).map (fun c => (⟨start + c.2 * n, c.1⟩ : Run α)) =
      layOut (start + k * n) (chunks n l) by
    simpa using h 0
  induction l using chunks_induction hn with
  | nil => simp [layOut]
  | step l hl ih =>
      intro k
      rw [chunks_eq_cons hn hl, List.zipIdx_cons, List.map_cons, layOut, ih (k + 1)]
      -- every chunk but the last has `n` elements
      by_cases hlast : l.drop n = []
      · rw [hlast, chunks_nil]
        rfl
      · have hlt : n < l.length := by
          by_contra hle
          exact hlast (List.drop_eq_nil_of_le (by omega))
        rw [List.length_take, Nat.min_eq_left hlt.le, Nat.succ_mul, Nat.add_assoc]

end Lib
