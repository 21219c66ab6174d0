import PicotoolRs.Lib.Runs

/-!
# PicotoolRs.Lib.Nor

NOR flash memory: **erase** sets every bit of a range, **program** can only
clear bits, so a byte written over an old one reads back as the bitwise AND of
the two.

Programming gives the data that was asked for only where the memory was erased
before and nothing else was programmed since. `image_erase_program` puts this
together for the order in which a flasher works: first all erases, then all
programs, each program inside an erased range, no two programs at one address.
-/

namespace Lib.Nor

/-- The content of the memory, by address. -/
abbrev Memory := Nat → UInt8

/-- The value of an erased byte. -/
def erased : UInt8 := 0xFF

/-- An operation on the memory. -/
inductive Op
  /-- Erase `size` bytes from `addr` on. -/
  | erase (addr size : Nat)
  /-- Program a run of bytes. -/
  | program (run : Run UInt8)
  deriving Repr, DecidableEq

/-- Set `[addr, addr + size)` to the erased value. -/
def erase (m : Memory) (addr size : Nat) : Memory := fun a =>
  if addr ≤ a ∧ a < addr + size then erased else m a

/-- AND the bytes of a run into the memory. -/
def program (m : Memory) (r : Run UInt8) : Memory := fun a =>
  if r.start ≤ a then
    match r.data[a - r.start]? with
    | some v => m a &&& v
    | none => m a
  else m a

/-- The memory after an operation. -/
def Op.apply (m : Memory) : Op → Memory
  | .erase addr size => Nor.erase m addr size
  | .program r => Nor.program m r

/-- The memory after operations in order. -/
def applyAll (m : Memory) (ops : List Op) : Memory := ops.foldl Op.apply m

@[simp] theorem applyAll_nil (m : Memory) : applyAll m [] = m := rfl

@[simp] theorem applyAll_cons (m : Memory) (op : Op) (ops : List Op) :
    applyAll m (op :: ops) = applyAll (op.apply m) ops := rfl

theorem applyAll_append (m : Memory) (ops ops' : List Op) :
    applyAll m (ops ++ ops') = applyAll (applyAll m ops) ops' := by
  simp [applyAll]

@[simp] theorem erased_and (v : UInt8) : erased &&& v = v := by
  have hones : erased.toBitVec = BitVec.allOnes 8 := rfl
  rw [← UInt8.toBitVec_inj, UInt8.toBitVec_and, hones, BitVec.allOnes_and]

theorem program_of_holds {m : Memory} {r : Run UInt8} {a : Nat} {v : UInt8} (h : r.Holds a v) :
    program m r a = m a &&& v := by
  simp [program, h.1, h.2]

theorem program_of_not_covers {m : Memory} {r : Run UInt8} {a : Nat} (h : ¬ r.Covers a) :
    program m r a = m a := by
  unfold program
  split
  · next hle =>
    split
    · next v hv => exact absurd (Run.Holds.covers ⟨hle, hv⟩) h
    · rfl
  · rfl

/-! ### All erases -/

/-- The address is in one of the ranges `(addr, size)`. -/
def InRanges (es : List (Nat × Nat)) (a : Nat) : Prop := ∃ e ∈ es, e.1 ≤ a ∧ a < e.1 + e.2

/-- Erases, as operations. -/
def erases (es : List (Nat × Nat)) : List Op := es.map fun e => .erase e.1 e.2

/-- Programs, as operations. -/
def programs (rs : List (Run UInt8)) : List Op := rs.map .program

theorem applyAll_erases_of_inRanges {m : Memory} {es : List (Nat × Nat)} {a : Nat}
    (h : InRanges es a ∨ m a = erased) : applyAll m (erases es) a = erased := by
  induction es generalizing m with
  | nil =>
      rcases h with ⟨e, he, -⟩ | h
      · simp at he
      · exact h
  | cons e es ih =>
      refine ih (m := Op.apply m (.erase e.1 e.2)) ?_
      by_cases hin : e.1 ≤ a ∧ a < e.1 + e.2
      · exact .inr (by simp [Op.apply, erase, hin])
      · rcases h with ⟨e', he', hin'⟩ | h
        · rcases List.mem_cons.mp he' with rfl | he'
          · exact absurd hin' hin
          · exact .inl ⟨e', he', hin'⟩
        · exact .inr (by simp [Op.apply, erase, hin, h])

theorem applyAll_erases_of_not_inRanges {m : Memory} {es : List (Nat × Nat)} {a : Nat}
    (h : ¬ InRanges es a) : applyAll m (erases es) a = m a := by
  induction es generalizing m with
  | nil => rfl
  | cons e es ih =>
      have hhead : ¬ (e.1 ≤ a ∧ a < e.1 + e.2) := fun hin => h ⟨e, List.mem_cons_self .., hin⟩
      refine (ih (m := Op.apply m (.erase e.1 e.2)) ?_).trans (by simp [Op.apply, erase, hhead])
      intro hrest
      obtain ⟨e', he', hin⟩ := hrest
      exact h ⟨e', List.mem_cons_of_mem _ he', hin⟩

/-! ### All programs -/

theorem applyAll_programs_of_not_covers {m : Memory} {rs : List (Run UInt8)} {a : Nat}
    (h : ∀ r ∈ rs, ¬ r.Covers a) : applyAll m (programs rs) a = m a := by
  induction rs generalizing m with
  | nil => rfl
  | cons r rs ih =>
      exact (ih (m := program m r) fun r' hr' => h r' (List.mem_cons_of_mem _ hr')).trans
        (program_of_not_covers (h r (List.mem_cons_self ..)))

/-- Where one program of a list without overlaps writes, its byte is ANDed in
and no other program has an effect. -/
theorem applyAll_programs_of_holds {m : Memory} {rs : List (Run UInt8)} {a : Nat} {v : UInt8}
    {r : Run UInt8} (hasc : rs.Pairwise fun p q => p.stop ≤ q.start) (hr : r ∈ rs)
    (h : r.Holds a v) : applyAll m (programs rs) a = m a &&& v := by
  induction rs generalizing m with
  | nil => simp at hr
  | cons q rs ih =>
      obtain ⟨hq, hrs⟩ := List.pairwise_cons.mp hasc
      have hcov := h.covers
      rcases List.mem_cons.mp hr with rfl | hr
      · have hrest : ∀ p ∈ rs, ¬ p.Covers a := fun p hp hpa => by
          have := hq p hp
          have := hcov.2
          have := hpa.1
          omega
        exact (applyAll_programs_of_not_covers (m := program m r) hrest).trans (program_of_holds h)
      · have hhead : ¬ q.Covers a := fun hqa => by
          have := hq r hr
          have := hcov.1
          have := hqa.2
          omega
        exact (ih (m := program m q) hrs hr).trans (by rw [program_of_not_covers hhead])

/-! ### Erase, then program -/

/-- After all erases and then all programs, without overlaps and inside erased
ranges: a programmed address holds its byte, every other address of an erased
range is erased, and the rest is unchanged. -/
theorem image_erase_program {m : Memory} {es : List (Nat × Nat)} {rs : List (Run UInt8)}
    (hasc : rs.Pairwise fun p q => p.stop ≤ q.start)
    (hin : ∀ r ∈ rs, ∀ a, r.Covers a → InRanges es a) (a : Nat) :
    let m' := applyAll m (erases es ++ programs rs)
    (∀ r ∈ rs, ∀ v, r.Holds a v → m' a = v) ∧
    (InRanges es a → (∀ r ∈ rs, ¬ r.Covers a) → m' a = erased) ∧
    (¬ InRanges es a → m' a = m a) := by
  dsimp only
  rw [applyAll_append]
  refine ⟨fun r hr v hv => ?_, fun hes hno => ?_, fun hes => ?_⟩
  · rw [applyAll_programs_of_holds hasc hr hv,
      applyAll_erases_of_inRanges (.inl (hin r hr a hv.covers)), erased_and]
  · rw [applyAll_programs_of_not_covers hno, applyAll_erases_of_inRanges (.inl hes)]
  · rw [applyAll_programs_of_not_covers fun r hr hc => hes (hin r hr a hc),
      applyAll_erases_of_not_inRanges hes]

/-! ### Cut off -/

/-- What operations leave at an address depends on what was there. -/
theorem applyAll_congr {m m' : Memory} {a : Nat} (h : m a = m' a) (ops : List Op) :
    applyAll m ops a = applyAll m' ops a := by
  induction ops generalizing m m' with
  | nil => exact h
  | cons op ops ih =>
      refine ih ?_
      cases op with
      | erase addr size => simp only [Op.apply, erase, h]
      | program r => simp only [Op.apply, program, h]

/-- Runs in address order share no address. -/
theorem eq_of_covers {rs : List (Run UInt8)} (hasc : rs.Pairwise fun p q => p.stop ≤ q.start)
    {r q : Run UInt8} (hr : r ∈ rs) (hq : q ∈ rs) {a : Nat} (hra : r.Covers a)
    (hqa : q.Covers a) : r = q := by
  induction rs with
  | nil => simp at hr
  | cons p rs ih =>
      obtain ⟨hp, hrs⟩ := List.pairwise_cons.mp hasc
      have happart : ∀ x ∈ rs, x.Covers a → ¬ p.Covers a := fun x hx hxa hpa => by
        have := hp x hx
        have := hxa.1
        have := hpa.2
        omega
      rcases List.mem_cons.mp hr with hrp | hr <;> rcases List.mem_cons.mp hq with hqp | hq
      · exact hrp.trans hqp.symm
      · exact absurd (hrp ▸ hra) (happart q hq hqa)
      · exact absurd (hqp ▸ hqa) (happart r hr hra)
      · exact ih hrs hr hq

/-- A part of all erases and then all programs, cut off at any point. Every byte
is still what it was, or erased, or what is programmed there; where nothing is
programmed it is one of the first two, and outside the erased ranges the first.
-/
theorem image_cut {m : Memory} {es : List (Nat × Nat)} {rs : List (Run UInt8)} {ops : List Op}
    (hasc : rs.Pairwise fun p q => p.stop ≤ q.start)
    (hin : ∀ r ∈ rs, ∀ a, r.Covers a → InRanges es a) (hops : ops <+: erases es ++ programs rs)
    (a : Nat) :
    let m' := applyAll m ops
    (∀ r ∈ rs, ∀ v, r.Holds a v → m' a = m a ∨ m' a = erased ∨ m' a = v) ∧
    ((∀ r ∈ rs, ¬ r.Covers a) → m' a = m a ∨ m' a = erased) ∧
    (¬ InRanges es a → m' a = m a) := by
  dsimp only
  obtain ⟨rest, hsplit⟩ := hops
  rcases List.append_eq_append_iff.mp hsplit with ⟨part, herases, -⟩ | ⟨part, rfl, hprograms⟩
  · -- cut off among the erases
    obtain ⟨es', hes', rfl⟩ := List.prefix_map_iff.mp ⟨part, herases.symm⟩
    have hbyte : applyAll m (erases es') a = m a ∨ applyAll m (erases es') a = erased := by
      by_cases h : InRanges es' a
      · exact .inr (applyAll_erases_of_inRanges (.inl h))
      · exact .inl (applyAll_erases_of_not_inRanges h)
    refine ⟨fun r _ v _ => ?_, fun _ => hbyte, fun hes => ?_⟩
    · rcases hbyte with h | h
      · exact .inl h
      · exact .inr (.inl h)
    · refine applyAll_erases_of_not_inRanges fun h => hes ?_
      obtain ⟨e, he, hea⟩ := h
      exact ⟨e, hes'.subset he, hea⟩
  · -- all is erased, and the first of the runs are programmed
    obtain ⟨rs', hrs', rfl⟩ := List.prefix_map_iff.mp ⟨rest, hprograms.symm⟩
    have himage := image_erase_program (m := m) (hasc.sublist hrs'.sublist)
      (fun r hr => hin r (hrs'.subset hr)) a
    refine ⟨fun r hr v hv => ?_, fun hno => ?_, himage.2.2⟩
    · by_cases h : ∃ q ∈ rs', q.Covers a
      · obtain ⟨q, hq, hqa⟩ := h
        obtain rfl := eq_of_covers hasc hr (hrs'.subset hq) hv.covers hqa
        exact .inr (.inr (himage.1 r hq v hv))
      · exact .inr (.inl (himage.2.1 (hin r hr a hv.covers) fun q hq hqa => h ⟨q, hq, hqa⟩))
    · by_cases hes : InRanges es a
      · exact .inr (himage.2.1 hes fun q hq => hno q (hrs'.subset hq))
      · exact .inl (himage.2.2 hes)

end Lib.Nor
