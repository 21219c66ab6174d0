import PicotoolRs.Stub

/-!
# PicotoolRs.Stub.Run

The run of the flash-id stub, from its entry to its return.

The blocks of the stub are run one after the other, with an induction over the
readings of RXFLR for the polling loop. A caller that provides a stack and a
return address gets its registers back, apart from the scratch registers; the
three bytes of the id are the only change to memory outside that stack.
-/

namespace PicotoolRs.Stub

open Lib Lib.Thumb Constants

/-- The address is in the stub. -/
def InStub (a : UInt32) : Prop := Mem.InRange stubAddr flashIdStub.length a

/-- The address is one of the result. -/
def InResult (a : UInt32) : Prop := Mem.InRange resultAddr 3 a

/-- Where the stub pushes its two words. -/
def frame (s : State Ssi) : UInt32 := s.regs sp - 8

/-- The address is in the two pushed words. -/
def InFrame (s : State Ssi) (a : UInt32) : Prop := Mem.InRange (frame s) 8 a

/-- The stub is entered: it is in memory, on a word-aligned stack whose next two
words are free, and with a return address. -/
structure Entered (s : State Ssi) : Prop where
  pc : s.pc = stubAddr
  stub : s.mem.Holds stubAddr flashIdStub
  aligned : (s.regs sp).toNat % 4 = 0
  free : ∀ a, InFrame s a → ¬ InStub a ∧ ¬ InResult a ∧ ssi.covers a = false
  thumb : s.regs lr &&& 1 ≠ 0

/-- The stub has returned: what it leaves behind, and the stores it made. -/
structure Returned (s s' : State Ssi) (id : UInt8 × UInt8 × UInt8) : Prop where
  pc : s'.pc = s.regs lr &&& ~~~1
  regs : ∀ r, r ≠ r0 → r ≠ r1 → r ≠ r2 → s'.regs r = s.regs r
  manufacturer : s'.mem resultAddr = id.1
  memoryType : s'.mem (resultAddr + 1) = id.2.1
  capacity : s'.mem (resultAddr + 2) = id.2.2
  mem : ∀ a, ¬ InResult a → ¬ InFrame s a → s'.mem a = s.mem a
  stores : s'.stores =
    s.stores ++ pushes (frame s) (s.regs r4) (s.regs lr) ++ writes ++ results id

/-- The machine gets from one state to another inside the stub. -/
abbrev Reaches (s t : State Ssi) : Prop := Steps ssi InStub s t

/-! ### The code -/

theorem code_stub : Code ssi stubAddr program where
  aligned := by decide
  fits := by decide
  plain := by
    intro a ha
    have hstub := (Mem.inRange_iff (by decide)).mp ha
    refine decide_eq_false fun hin => ?_
    have hssi := (Mem.inRange_iff (by decide)).mp hin
    have hbelow : Ssi.base.toNat + 0x100 ≤ stubAddr.toNat := by decide
    omega

/-- A block of the stub. -/
theorem block {k : Nat} {is post : List Instr} {s t : State Ssi} {new : List Store}
    (h : At stubAddr program k s) (hprog : program.drop k = is ++ post)
    (hseq : ∀ i ∈ is, i.sequential) (hexecs : execs ssi s is = some t)
    (hstores : t.stores = s.stores ++ new) (hclear : Clear ssi stubAddr program new) :
    Reaches s t ∧ At stubAddr program (k + is.length) t :=
  h.block code_stub hprog hseq hexecs hstores hclear

theorem clear_nil : Clear ssi stubAddr program [] := by
  intro w hw
  simp at hw

/-- Nothing that is written to the SSI goes to memory. -/
theorem clear_writes : Clear ssi stubAddr program writes := by
  intro w hw hcov
  have hall : ∀ w ∈ writes, ssi.covers w.addr = true := by decide
  rw [hall w hw] at hcov
  cases hcov

theorem clear_results (id : UInt8 × UInt8 × UInt8) :
    Clear ssi stubAddr program (results id) := by
  intro w hw _ x hx htouch
  simp only [results, List.mem_cons, List.not_mem_nil, or_false] at hw
  rcases hw with rfl | rfl | rfl <;> obtain rfl : x = _ := htouch <;>
    exact absurd hx (by decide)

/-! ### The stack -/

namespace Entered

variable {s : State Ssi}

theorem frame_aligned (h : Entered s) :
    (frame s).toNat % 4 = 0 ∧ (frame s + 4).toNat % 4 = 0 := by
  have halign := h.aligned
  have height : (8 : UInt32).toNat = 8 := rfl
  have hfour : (4 : UInt32).toNat = 4 := rfl
  rw [UInt32.toNat_add, frame, UInt32.toNat_sub]
  omega

theorem inFrame_first {a : UInt32} (h : Mem.InRange (frame s) 4 a) : InFrame s a := by
  exact Nat.lt_of_lt_of_le h (by decide)

theorem inFrame_second {a : UInt32} (h : Mem.InRange (frame s + 4) 4 a) : InFrame s a := by
  exact Mem.InRange.of_add (by decide) (by decide) h

theorem inFrame_frame : InFrame s (frame s) := by
  rw [InFrame, Mem.InRange, UInt32.sub_self]
  decide

theorem inFrame_add : InFrame s (frame s + 4) := by
  rw [InFrame, Mem.InRange, Mem.add_sub_self]
  decide

theorem clear_pushes (h : Entered s) (v ra : UInt32) :
    Clear ssi stubAddr program (pushes (frame s) v ra) := by
  intro w hw _ x hx htouch
  simp only [pushes, List.mem_cons, List.not_mem_nil, or_false] at hw
  rcases hw with rfl | rfl
  · exact (h.free x (inFrame_first htouch)).1 hx
  · exact (h.free x (inFrame_second htouch)).1 hx

end Entered

/-- The memory with the two words pushed. -/
def pushed (s : State Ssi) : Mem :=
  (s.mem.writeWord (frame s) (s.regs r4)).writeWord (frame s + 4) (s.regs lr)

theorem pushed_of_not_inFrame {s : State Ssi} {a : UInt32} (h : ¬ InFrame s a) :
    pushed s a = s.mem a := by
  rw [pushed, Mem.writeWord_of_not_inRange fun h' => h (Entered.inFrame_second h'),
    Mem.writeWord_of_not_inRange fun h' => h (Entered.inFrame_first h')]

theorem readWord_pushed (s : State Ssi) :
    (pushed s).readWord (frame s) = s.regs r4 ∧ (pushed s).readWord (frame s + 4) = s.regs lr := by
  refine ⟨?_, Mem.readWord_writeWord ..⟩
  rw [← Mem.readWord_writeWord s.mem (frame s) (s.regs r4)]
  refine Mem.readWord_congr fun x hx => Mem.writeWord_of_not_inRange ?_
  exact hx.not_add (by decide) (by decide)

theorem putId_of_not_inResult {m : Mem} {id : UInt8 × UInt8 × UInt8} {a : UInt32}
    (h : ¬ InResult a) : putId m id a = m a := by
  have hpart : ∀ k : UInt32, k.toNat + 1 ≤ 3 → ¬ Mem.InRange (resultAddr + k) 1 a :=
    fun k hk hin => h (hin.of_add hk (by decide))
  rw [putId, Mem.writeBytes_of_not_inRange (hpart 2 (by decide)),
    Mem.writeBytes_of_not_inRange (hpart 1 (by decide)),
    Mem.writeBytes_of_not_inRange (hpart 0 (by decide))]

/-- The result does not reach into the pushed words. -/
theorem readWord_putId {s : State Ssi} (h : Entered s) (id : UInt8 × UInt8 × UInt8) :
    (putId (pushed s) id).readWord (frame s) = s.regs r4 ∧
      (putId (pushed s) id).readWord (frame s + 4) = s.regs lr := by
  obtain ⟨h₁, h₂⟩ := readWord_pushed s
  rw [← h₁, ← h₂]
  constructor
  · exact Mem.readWord_congr fun x hx =>
      putId_of_not_inResult (h.free x (Entered.inFrame_first hx)).2.1
  · exact Mem.readWord_congr fun x hx =>
      putId_of_not_inResult (h.free x (Entered.inFrame_second hx)).2.1

/-! ### Entry and return -/

theorem enter_execs {s : State Ssi} (h : Entered s) :
    ∃ t, execs ssi s enter = some t ∧
      t.stores = s.stores ++ pushes (frame s) (s.regs r4) (s.regs lr) ∧ t.mem = pushed s ∧
      t.regs sp = frame s ∧ (∀ r, r ≠ sp → t.regs r = s.regs r) ∧ t.dev = s.dev := by
  obtain ⟨h₀, h₄⟩ := h.frame_aligned
  have hcov := (h.free _ Entered.inFrame_frame).2.2
  have hcov' := (h.free _ Entered.inFrame_add).2.2
  have hframe : s.regs sp - UInt32.ofNat (4 * [r4, lr].length) = frame s := rfl
  unfold enter
  simp only [execs_cons, resume_some, execs_nil, exec, hframe, storeRegs, storeWord_mem h₀ hcov,
    storeWord_mem h₄ hcov', State.record_regs, State.setMem_regs, Option.bind_some,
    Option.map_some]
  refine ⟨_, rfl, ?_, ?_, ?_, ?_, ?_⟩
  · simp [pushes]
  · simp [pushed]
  · simp
  · intro r hr
    simp [hr]
  · simp

theorem leave_exec {s t : State Ssi} {id : UInt8 × UInt8 × UInt8} (h : Entered s)
    (hsp : t.regs sp = frame s) (hmem : t.mem = putId (pushed s) id) :
    ∃ u, exec ssi t leave = some u ∧ u.pc = s.regs lr &&& ~~~1 ∧ u.regs r4 = s.regs r4 ∧
      u.regs sp = s.regs sp ∧ (∀ r, r ≠ r4 → r ≠ sp → u.regs r = t.regs r) ∧
      u.stores = t.stores ∧ u.mem = t.mem ∧ u.dev = t.dev := by
  obtain ⟨h₀, h₄⟩ := h.frame_aligned
  obtain ⟨hr4, hlr⟩ := readWord_putId h id
  have hcov := (h.free _ Entered.inFrame_frame).2.2
  have hcov' := (h.free _ Entered.inFrame_add).2.2
  unfold leave
  simp only [exec, loadRegs, hsp, loadWord_mem h₀ hcov, loadWord_mem h₄ hcov', State.setReg_mem,
    hmem, hr4, hlr, branchTo, if_neg h.thumb, Option.bind_some]
  refine ⟨_, rfl, rfl, ?_, ?_, ?_, rfl, ?_, rfl⟩
  · simp (disch := decide)
  · have hback : frame s + 4 + 4 = s.regs sp := by
      unfold frame
      grind
    simp [hback]
  · intro r h₁ h₂
    simp [h₁, h₂]
  · simp

/-! ### The polling loop -/

/-- The machine is at the polling loop, with the block's address in hand. -/
structure Polling (s : State Ssi) : Prop where
  here : At stubAddr program 17 s
  base : s.regs r0 = Ssi.base

/-- One pass through the loop, up to the branch. -/
theorem poll_block {s : State Ssi} {w : UInt32} {ws fs : List UInt32} (h : Polling s)
    (hdev : s.dev = ⟨w :: ws, fs⟩) :
    ∃ t, Reaches s t ∧ At stubAddr program 19 t ∧ t.stores = s.stores ∧
      t.flags.c = decide (4 ≤ w) ∧ (∀ r, r ≠ r2 → t.regs r = s.regs r) ∧ t.mem = s.mem ∧
      t.dev = ⟨ws, fs⟩ := by
  obtain ⟨t, hexecs, hstores, hc, hregs, hmem, hdev'⟩ := poll_execs h.base hdev
  have hdrop : program.drop 17 = poll ++ ([again] ++ readId ++ [leave]) := rfl
  obtain ⟨hreach, hat⟩ := block h.here hdrop (by decide) hexecs
    (by rw [hstores, List.append_nil]) clear_nil
  exact ⟨t, hreach, hat, hstores, hc, hregs, hmem, hdev'⟩

/-- The branch at the end of the loop. -/
theorem again_reaches {s : State Ssi} (h : At stubAddr program 19 s) :
    Reaches s (if s.flags.c then s.next else { s with pc := s.pc + (-4) }) := by
  refine h.step code_stub (i := again) rfl ?_
  cases hc : s.flags.c <;> simp [exec, again, Cond.passed, hc]

/-- The loop is left at the first reading of at least four. By induction on the
readings before it, each of which is one pass. -/
theorem poll_loop {ws ls fs : List UInt32} {w : UInt32} (hws : ∀ x ∈ ws, x < 4) (hw : 4 ≤ w)
    {s : State Ssi} (h : Polling s) (hdev : s.dev = ⟨ws ++ w :: ls, fs⟩) :
    ∃ t, Reaches s t ∧ At stubAddr program 20 t ∧ t.stores = s.stores ∧
      (∀ r, r ≠ r2 → t.regs r = s.regs r) ∧ t.mem = s.mem ∧ t.dev = ⟨ls, fs⟩ := by
  induction ws generalizing s with
  | nil =>
      obtain ⟨t, hreach, hat, hstores, hc, hregs, hmem, hdev'⟩ := poll_block h hdev
      have hout := again_reaches hat
      rw [hc, decide_eq_true hw, if_pos rfl] at hout
      refine ⟨t.next, hreach.trans hout, ⟨?_, hat.loaded⟩, hstores, hregs, hmem, hdev'⟩
      rw [State.next_pc, hat.pc]
      rfl
  | cons x ws ih =>
      obtain ⟨t, hreach, hat, hstores, hc, hregs, hmem, hdev'⟩ := poll_block h hdev
      have hx : ¬ 4 ≤ x := UInt32.not_le.mpr (hws x List.mem_cons_self)
      have hback := again_reaches hat
      rw [hc, decide_eq_false hx, if_neg Bool.false_ne_true] at hback
      have hpoll : Polling { t with pc := t.pc + (-4) } := by
        refine ⟨⟨?_, hat.loaded⟩, (hregs r0 (by decide)).trans h.base⟩
        show t.pc + (-4) = _
        rw [hat.pc]
        decide
      obtain ⟨u, hreach', hat', hstores', hregs', hmem', hdev''⟩ :=
        ih (fun y hy => hws y (List.mem_cons_of_mem _ hy)) hpoll hdev'
      exact ⟨u, (hreach.trans hback).trans hreach', hat', hstores'.trans hstores,
        fun r hr => (hregs' r hr).trans (hregs r hr), hmem'.trans hmem, hdev''⟩

/-! ### The whole run -/

/-- From the entry to the polling loop. -/
theorem enter_reaches {s : State Ssi} (h : Entered s) :
    ∃ t, Reaches s t ∧ Polling t ∧
      t.stores = s.stores ++ pushes (frame s) (s.regs r4) (s.regs lr) ++ writes ∧
      t.regs sp = frame s ∧ (∀ r, r ≠ r0 → r ≠ r1 → r ≠ r2 → r ≠ sp → t.regs r = s.regs r) ∧
      t.mem = pushed s ∧ t.dev = s.dev := by
  have hat : At stubAddr program 0 s := by
    refine ⟨?_, loaded_of_holds decodeAll_flashIdStub h.stub⟩
    rw [h.pc]
    rfl
  obtain ⟨t, hexecs, hstores, hmem, hsp, hregs, hdev⟩ := enter_execs h
  have hdrop : program.drop 0 = enter ++ (setup ++ poll ++ [again] ++ readId ++ [leave]) := rfl
  obtain ⟨hreach, hat⟩ := block hat hdrop (by decide) hexecs hstores (h.clear_pushes _ _)
  obtain ⟨u, hexecs, hstores', hbase, hregs', hmem', hdev'⟩ := setup_execs t
  have hdrop' : program.drop 1 = setup ++ (poll ++ [again] ++ readId ++ [leave]) := rfl
  obtain ⟨hreach', hat'⟩ := block hat hdrop' (by decide) hexecs hstores' clear_writes
  refine ⟨u, hreach.trans hreach', ⟨hat', hbase⟩, by rw [hstores', hstores], ?_, ?_, ?_, ?_⟩
  · rw [hregs' sp (by decide) (by decide) (by decide), hsp]
  · intro r h₀ h₁ h₂ hr
    rw [hregs' r h₀ h₁ h₂, hregs r hr]
  · rw [hmem', hmem]
  · rw [hdev', hdev]

/-- The stub runs to its return, for any readings below four before one of at
least four, and for any frames. -/
theorem returns {s : State Ssi} {ws ls fs : List UInt32} {w f₀ f₁ f₂ f₃ : UInt32}
    (h : Entered s) (hws : ∀ x ∈ ws, x < 4) (hw : 4 ≤ w)
    (hdev : s.dev = ⟨ws ++ w :: ls, f₀ :: f₁ :: f₂ :: f₃ :: fs⟩) :
    ∃ s', Reaches s s' ∧ Returned s s' (f₁.toUInt8, f₂.toUInt8, f₃.toUInt8) ∧
      s'.dev = ⟨ls, fs⟩ := by
  obtain ⟨t, hreach, hpoll, hstores, hsp, hregs, hmem, hdev₁⟩ := enter_reaches h
  obtain ⟨t₂, hreach₂, hat₂, hstores₂, hregs₂, hmem₂, hdev₂⟩ :=
    poll_loop hws hw hpoll (hdev₁.trans hdev)
  have hbase : t₂.regs r0 = Ssi.base := (hregs₂ r0 (by decide)).trans hpoll.base
  obtain ⟨t₃, hexecs, hstores₃, hmem₃, hregs₃, hdev₃⟩ := readId_execs hbase hdev₂
  have hdrop : program.drop 20 = readId ++ [leave] := rfl
  obtain ⟨hreach₃, hat₃⟩ := block hat₂ hdrop (by decide) hexecs hstores₃ (clear_results _)
  have hsp₃ : t₃.regs sp = frame s := by
    rw [hregs₃ sp (by decide) (by decide), hregs₂ sp (by decide), hsp]
  have hput : t₃.mem = putId (pushed s) (f₁.toUInt8, f₂.toUInt8, f₃.toUInt8) := by
    rw [hmem₃, hmem₂, hmem]
  obtain ⟨s', hexec, hpc, hr4, hsp', hregs', hstores', hmem', hdev'⟩ := leave_exec h hsp₃ hput
  have hreach' : Reaches t₃ s' := hat₃.step code_stub (i := leave) rfl hexec
  refine ⟨s', ((hreach.trans hreach₂).trans hreach₃).trans hreach', ⟨hpc, ?_, ?_, ?_, ?_, ?_, ?_⟩,
    hdev'.trans hdev₃⟩
  · intro r h₀ h₁ h₂
    by_cases hr : r = r4
    · rw [hr, hr4]
    · by_cases hr' : r = sp
      · rw [hr', hsp']
      · rw [hregs' r hr hr', hregs₃ r h₂ hr, hregs₂ r h₂, hregs r h₀ h₁ h₂ hr']
  · rw [hmem', hput]
    rfl
  · rw [hmem', hput]
    rfl
  · rw [hmem', hput]
    rfl
  · intro a hres hframe
    rw [hmem', hput, putId_of_not_inResult hres, pushed_of_not_inFrame hframe]
  · rw [hstores', hstores₃, hstores₂, hstores]

theorem not_inResult_of_inStub {a : UInt32} (h : InStub a) : ¬ InResult a := by
  intro h'
  have hstub := (Mem.inRange_iff (by decide)).mp h
  have hres := (Mem.inRange_iff (by decide)).mp h'
  have hbehind : stubAddr.toNat + flashIdStub.length ≤ resultAddr.toNat := by decide
  omega

/-- The stub is not overwritten. -/
theorem Returned.stub {s s' : State Ssi} {id : UInt8 × UInt8 × UInt8} (h : Returned s s' id)
    (hent : Entered s) : s'.mem.Holds stubAddr flashIdStub := by
  intro i b hi
  have hlen : i < flashIdStub.length := (List.getElem?_eq_some_iff.mp hi).1
  have hlt : flashIdStub.length < 2 ^ 32 := by decide
  have hstub : InStub (stubAddr + UInt32.ofNat i) := by
    rw [InStub, Mem.InRange, Mem.add_sub_self, UInt32.toNat_ofNat', Nat.mod_eq_of_lt (by omega)]
    exact hlen
  rw [h.mem _ (not_inResult_of_inStub hstub) fun hframe => (hent.free _ hframe).1 hstub]
  exact hent.stub i b hi

end PicotoolRs.Stub
