import PicotoolRs.Bootsel
import PicotoolRs.Device.Link
import PicotoolRs.Lib.Cut

/-!
# PicotoolRs.Bootsel.Script

What the device makes of the transfers of one command.

If all of them pass, the device was idle, has carried out the command and is idle
again (`script_passed`). If the host was cut off, or a transfer failed, flash has
changed at most where the command was about to change it (`script_issued`).
-/

namespace PicotoolRs

open Lib Constants

/-- No packet is taken for data in this stage, and no data goes to flash. -/
def Stage.Harmless (stage : Stage) : Prop :=
  ∀ addr size, stage = .takesData addr size →
    size.toNat ≠ 32 ∧ ∀ a, addr.toNat ≤ a → a < addr.toNat + size.toNat → ¬ InFlash a

theorem Stage.harmless_of_ne {stage : Stage} (h : ∀ addr size, stage ≠ .takesData addr size) :
    stage.Harmless := fun addr size hs => absurd hs (h addr size)

@[simp] theorem Stage.harmless_idle : Stage.idle.Harmless := harmless_of_ne (by simp)

@[simp] theorem Stage.harmless_sendsAck : Stage.sendsAck.Harmless := harmless_of_ne (by simp)

@[simp] theorem Stage.harmless_takesAck : Stage.takesAck.Harmless := harmless_of_ne (by simp)

@[simp] theorem Stage.harmless_sendsData (addr size : UInt32) :
    (Stage.sendsData addr size).Harmless := harmless_of_ne (by simp)

/-- The device has carried out a command. -/
structure Board.Passed (board : Board) (cmd : Command) (data : List UInt8) (tr : BusTrace)
    (b b' : Bootsel) : Prop where
  idle : b.stage = .idle
  accepts : board.Accepts b cmd
  changes : board.Changes (cmd.job data) b.mem b'.mem
  /-- What was received is what is in memory. -/
  received : ∀ addr size, cmd = .read addr size → received tr = content b.mem addr size.toNat
  stage : b'.stage = .idle
  xip : b'.xip = cmd.xipAfter b.xip
  rebooting : b'.rebooting = cmd.isReboot

/-! ### Single transfers -/

section Serve

variable {board : Board} {b b' : Bootsel} {c : Completion}

/-- What the device makes of a packet. -/
inductive Board.Taken (board : Board) (b : Bootsel) : Command → Bootsel → Prop
  | command {cmd : Command} {m : Nor.Memory} : cmd.dataPhase = .none →
      board.Changes (cmd.job []) b.mem m →
      Taken board b cmd ⟨.sendsAck, cmd.xipAfter b.xip, cmd.isReboot, m⟩
  | write {addr size : UInt32} :
      Taken board b (.write addr size) { b with stage := .takesData addr size }
  | read {addr size : UInt32} :
      Taken board b (.read addr size) { b with stage := .sendsData addr size }

/-- A packet is taken for what it is. -/
theorem Board.Serve.packet {cmd : Command} {token : UInt32}
    (h : board.Serve b (.bulkOut (cmd.encode token)) c b') (hb : b.stage.Harmless) :
    b.stage = .idle ∧ board.Accepts b cmd ∧ board.Taken b cmd b' := by
  have hlen := Command.length_encode cmd token
  generalize hpacket : cmd.encode token = packet at h
  rw [hpacket] at hlen
  have hdecode : ∀ {cmd' : Command} {token' : UInt32},
      Command.decode packet = some (cmd', token') → cmd' = cmd := by
    intro cmd' token' h
    rw [← hpacket, Command.decode_encode] at h
    exact (Prod.mk.inj (Option.some.inj h)).1.symm
  cases h with
  | command hidle hdec hacc hphase hchange =>
      obtain rfl := hdecode hdec
      exact ⟨hidle, hacc, .command hphase hchange⟩
  | write hidle hdec hacc =>
      obtain rfl := hdecode hdec
      exact ⟨hidle, hacc, .write⟩
  | read hidle hdec hacc =>
      obtain rfl := hdecode hdec
      exact ⟨hidle, hacc, .read⟩
  | takeData hstage hsize _ => exact absurd (hsize.symm.trans hlen) (hb _ _ hstage).1
  | takeAck _ => simp at hlen

/-- An acknowledgement is read where there is one. -/
theorem Board.Serve.sentAck {room : Nat} (h : board.Serve b (.bulkIn room) c b')
    (hb : b.stage = .sendsAck) : b' = { b with stage := .idle } := by
  cases h with
  | sendData hstage _ => simp [hb] at hstage
  | sendAck _ => rfl

theorem Board.Serve.tookData {addr size : UInt32} {buf : List UInt8}
    (h : board.Serve b (.bulkOut buf) c b') (hb : b.stage = .takesData addr size) :
    board.does (.write addr buf) b.mem b'.mem ∧
      b' = { b with stage := .sendsAck, mem := b'.mem } := by
  cases h with
  | command hstage _ _ _ _ => simp [hb] at hstage
  | write hstage _ _ => simp [hb] at hstage
  | read hstage _ _ => simp [hb] at hstage
  | takeData hstage _ hchange =>
      rw [hb, Stage.takesData.injEq] at hstage
      obtain ⟨rfl, rfl⟩ := hstage
      exact ⟨hchange, rfl⟩
  | takeAck hstage => simp [hb] at hstage

theorem Board.Serve.sentData {addr size : UInt32} {room : Nat}
    (h : board.Serve b (.bulkIn room) c b') (hb : b.stage = .sendsData addr size) :
    c.buffer = content b.mem addr size.toNat ∧ b' = { b with stage := .takesAck } := by
  cases h with
  | sendData hstage _ =>
      rw [hb, Stage.sendsData.injEq] at hstage
      obtain ⟨rfl, rfl⟩ := hstage
      exact ⟨rfl, rfl⟩
  | sendAck hstage => simp [hb] at hstage

theorem Board.Serve.tookAck (h : board.Serve b (.bulkOut []) c b') (hb : b.stage = .takesAck) :
    b' = { b with stage := .idle } := by
  generalize hbuf : ([] : List UInt8) = buf at h
  cases h with
  | command hstage _ _ _ _ => simp [hb] at hstage
  | write hstage _ _ => simp [hb] at hstage
  | read hstage _ _ => simp [hb] at hstage
  | takeData hstage _ _ => simp [hb] at hstage
  | takeAck _ => rfl

end Serve

/-! ### A command that passed -/

section Passed

variable {board : Board} {d : Device} {cmd : Command} {data : List UInt8} {tr : BusTrace}
  {b b' : Bootsel}

/-- The device after the packet and before the rest. -/
theorem script_passed (h : Attempt Request.failure Request.Stuck (cmd.script d data) tr (.ok ()))
    (hserves : Peer.Serves board.Reacts b tr b') (hb : b.stage.Harmless) :
    board.Passed cmd data tr b b' := by
  cases h with
  | @next _ _ c t _ hf h =>
  obtain ⟨b₁, hreact, hserves⟩ := Peer.serves_cons.mp hserves
  obtain ⟨hidle, hacc, htaken⟩ := (hreact.serve hf).packet hb
  have hkept : received ((cmd.packet d, c) :: t) = received t := by
    simp [received, kept_packet]
  cases htaken with
  | command hphase hchange =>
      -- the packet, then the acknowledgement
      simp only [Command.rest, hphase] at h
      cases h with
      | next hf h =>
      cases h
      have hreact := Peer.serves_singleton.mp hserves
      obtain rfl := (hreact.serve hf).sentAck rfl
      rw [← Command.job_of_no_data hphase data] at hchange
      refine ⟨hidle, hacc, hchange, ?_, rfl, rfl, rfl⟩
      intro addr size hread
      simp [hread, Command.dataPhase] at hphase
  | @write addr size =>
      -- the data phase is where memory changes
      simp only [Command.rest, Command.dataPhase] at h
      cases h with
      | next hf h =>
      cases h with
      | next hf' h =>
      cases h
      obtain ⟨b₂, hreact, hserves⟩ := Peer.serves_cons.mp hserves
      have hreact' := Peer.serves_singleton.mp hserves
      obtain ⟨hchange, hb₂⟩ := (hreact.serve hf).tookData rfl
      have hb₃ := (hreact'.serve hf').sentAck (by rw [hb₂])
      rw [hb₃, hb₂]
      exact ⟨hidle, hacc, hchange, by simp, rfl, rfl, hacc.1⟩
  | @read addr size =>
      simp only [Command.rest, Command.dataPhase] at h
      cases h with
      | @next _ _ c₂ _ _ hf h =>
      cases h with
      | next hf' h =>
      cases h
      obtain ⟨b₂, hreact, hserves⟩ := Peer.serves_cons.mp hserves
      have hreact' := Peer.serves_singleton.mp hserves
      obtain ⟨hbuf, rfl⟩ := (hreact.serve hf).sentData rfl
      obtain rfl := (hreact'.serve hf').tookAck rfl
      refine ⟨hidle, hacc, rfl, ?_, rfl, rfl, hacc.1⟩
      intro addr' size' hread
      obtain ⟨rfl, rfl⟩ := Command.read.inj hread
      have htake : (content b.mem addr size.toNat).take size.toNat =
          content b.mem addr size.toNat := List.take_of_length_le (by simp)
      rw [hkept]
      simp [received, Request.kept, Request.inData, Request.outAck, Command.ackOp, hbuf, htake]

end Passed

/-! ### A command that was cut off -/

/-- Memory changes only where a job is about to change it. -/
def Board.Local (board : Board) : Prop :=
  ∀ job m m', board.does job m m' → ∀ a, m' a ≠ m a → job.Touches a

/-- The command erases or writes at this address. -/
def Command.Touches : Command → Nat → Prop
  | flashErase addr size, a | write addr size, a =>
      addr.toNat ≤ a ∧ a < addr.toNat + size.toNat
  | _, _ => False

section Issued

variable {board : Board} {b b' : Bootsel} {r : Request} {c : Completion}

/-- A transfer that starts no job leaves memory as it is. -/
theorem Board.Reacts.mem_eq (h : board.Reacts b r c b') (hstarts : b.starts r.transfer = none) :
    b'.mem = b.mem := by
  cases h with
  | failed _ h =>
      funext a
      by_contra ha
      obtain ⟨job, hjob, -⟩ := h.mem a ha
      simp [hstarts] at hjob
  | served h =>
      generalize ht : r.transfer = t at h hstarts
      cases h with
      | @command packet cmd token m hidle hdec _ hphase hchange =>
          have hjob : cmd.job [] = none := by
            simpa [Bootsel.starts, hidle, hdec, Command.prompt, hphase] using hstarts
          rw [hjob] at hchange
          exact hchange
      | takeData hstage _ _ => simp [Bootsel.starts, hstage] at hstarts
      | _ => rfl

/-- A transfer changes memory only where the job it starts does. -/
theorem Board.Reacts.touches (hlocal : board.Local) (h : board.Reacts b r c b') {a : Nat}
    (ha : b'.mem a ≠ b.mem a) : ∃ job, b.starts r.transfer = some job ∧ job.Touches a := by
  cases h with
  | failed _ h => exact h.mem a ha
  | served h =>
      generalize ht : r.transfer = t at h
      cases h with
      | @command packet cmd token m hidle hdec _ hphase hchange =>
          cases hjob : cmd.job [] with
          | none =>
              rw [hjob] at hchange
              exact absurd (congrFun hchange a) ha
          | some job =>
              rw [hjob] at hchange
              refine ⟨job, ?_, hlocal _ _ _ hchange a ha⟩
              simp [Bootsel.starts, hidle, hdec, Command.prompt, hphase, hjob]
      | @takeData addr size buf m hstage hsize hchange =>
          refine ⟨.write addr buf, ?_, hlocal _ _ _ hchange a ha⟩
          simp [Bootsel.starts, hstage, ← hsize]
      | _ => exact absurd rfl ha

/-- Where a transfer takes the device: a stage in which nothing is about to be
changed, unless it announces data. -/
theorem Board.Reacts.stage (h : board.Reacts b r c b') :
    (∀ addr size, b'.stage ≠ .takesData addr size) ∨ b'.stage = b.stage ∨
      ∃ packet addr size token, r.transfer = .bulkOut packet ∧ b.stage = .idle ∧
        Command.decode packet = some (.write addr size, token) ∧
        b'.stage = .takesData addr size := by
  have hserve : ∀ {t : Transfer} {c : Completion} {b'' : Bootsel}, board.Serve b t c b'' →
      (∀ addr size, b''.stage ≠ .takesData addr size) ∨
        ∃ packet addr size token, t = .bulkOut packet ∧ b.stage = .idle ∧
          Command.decode packet = some (.write addr size, token) ∧
          b''.stage = .takesData addr size := by
    intro t c b'' h
    cases h with
    | write hidle hdec _ => exact .inr ⟨_, _, _, _, rfl, hidle, hdec, rfl⟩
    | _ => exact .inl (by simp)
  cases h with
  | served h =>
      rcases hserve h with h | h
      · exact .inl h
      · exact .inr (.inr h)
  | failed _ h =>
      rcases h.stage with h | h | ⟨c', b'', h, hb''⟩
      · exact .inl (by simp [h])
      · exact .inr (.inl h)
      · rw [hb'']
        rcases hserve h with h | h
        · exact .inl h
        · exact .inr (.inr h)

/-- Only a packet that is accepted can be a reboot. -/
theorem Board.Reacts.rebooting (h : board.Reacts b r c b') :
    b'.rebooting = b.rebooting ∨
      ∃ packet cmd token, r.transfer = .bulkOut packet ∧ b.stage = .idle ∧
        Command.decode packet = some (cmd, token) ∧ b.rebooting = false ∧
        b'.rebooting = cmd.isReboot := by
  have hserve : ∀ {t : Transfer} {c : Completion} {b'' : Bootsel}, board.Serve b t c b'' →
      b''.rebooting = b.rebooting ∨
        ∃ packet cmd token, t = .bulkOut packet ∧ b.stage = .idle ∧
          Command.decode packet = some (cmd, token) ∧ b.rebooting = false ∧
          b''.rebooting = cmd.isReboot := by
    intro t c b'' h
    cases h with
    | command hidle hdec hacc _ _ => exact .inr ⟨_, _, _, rfl, hidle, hdec, hacc.1, rfl⟩
    | _ => exact .inl rfl
  cases h with
  | served h => exact hserve h
  | failed _ h =>
      rcases h.rebooting with h | ⟨c', b'', h, hb''⟩
      · exact .inl h
      · rw [hb'']
        exact hserve h

/-- Nothing has changed, except perhaps the stage. -/
structure Untouched (b b' : Bootsel) : Prop where
  mem : b'.mem = b.mem
  stage : b'.stage.Harmless
  rebooting : b'.rebooting = b.rebooting

/-- A transfer within a command that starts no job changes nothing. -/
theorem Board.Reacts.quiet (h : board.Reacts b r c b') (hstarts : b.starts r.transfer = none)
    (hidle : b.stage ≠ .idle) (hb : b.stage.Harmless) : Untouched b b' := by
  refine ⟨h.mem_eq hstarts, ?_, ?_⟩
  · rcases h.stage with h | h | ⟨_, _, _, _, -, h, -⟩
    · exact Stage.harmless_of_ne h
    · rwa [h]
    · exact absurd h hidle
  · rcases h.rebooting with h | ⟨_, _, _, -, h, -⟩
    · exact h
    · exact absurd h hidle

/-- What a command has changed at most, and in which stage it may leave the
device. -/
structure Contained (board : Board) (cmd : Command) (b b' : Bootsel) : Prop where
  flash : board.Local → ∀ a, InFlash a → b'.mem a ≠ b.mem a → cmd.Touches a
  stage : (∀ addr size, cmd = .write addr size → (Stage.takesData addr size).Harmless) →
    b'.stage.Harmless
  rebooting : cmd.isReboot = false → b'.rebooting = b.rebooting

theorem Untouched.contained {cmd : Command} (h : Untouched b b') : Contained board cmd b b' :=
  ⟨fun _ a _ ha => absurd (congrFun h.mem a) ha, fun _ => h.stage, fun _ => h.rebooting⟩

/-- What was changed at most is not more after a transfer that changes nothing. -/
theorem Contained.trans {cmd : Command} {b₁ : Bootsel} (h : Contained board cmd b b₁)
    (h' : Untouched b₁ b') : Contained board cmd b b' :=
  ⟨fun hlocal a hflash ha => h.flash hlocal a hflash (by rwa [← h'.mem]), fun _ => h'.stage,
    fun hno => h'.rebooting.trans (h.rebooting hno)⟩

/-- The packet, whatever comes of it. -/
theorem contained_packet {d : Device} {cmd : Command} (h : board.Reacts b (cmd.packet d) c b')
    (hb : b.stage.Harmless) : Contained board cmd b b' := by
  have htransfer : (cmd.packet d).transfer = .bulkOut (cmd.encode d.token) := rfl
  constructor
  · intro hlocal a hflash ha
    obtain ⟨job, hjob, hin⟩ := h.touches hlocal ha
    rw [htransfer] at hjob
    cases hstage : b.stage with
    | idle =>
        simp only [Bootsel.starts, hstage, Command.decode_encode, Option.bind_some] at hjob
        cases cmd <;> simp only [Command.prompt, Command.dataPhase, Command.job,
          reduceCtorEq, Option.some.injEq] at hjob <;> subst hjob
        · exact absurd hflash hin
        · exact hin
    | takesData addr size =>
        simp only [Bootsel.starts, hstage, Option.some.injEq] at hjob
        subst hjob
        obtain ⟨hlo, hhi⟩ := hin
        rw [List.length_take] at hhi
        exact absurd hflash ((hb _ _ hstage).2 a hlo (by omega))
    | _ => simp [Bootsel.starts, hstage] at hjob
  · intro hwrite
    rcases h.stage with h | h | ⟨packet, addr, size, token, hpacket, -, hdec, h⟩
    · exact Stage.harmless_of_ne h
    · rwa [h]
    · rw [htransfer] at hpacket
      rw [← Transfer.bulkOut.inj hpacket, Command.decode_encode] at hdec
      rw [h]
      exact hwrite addr size (Prod.mk.inj (Option.some.inj hdec)).1
  · intro hno
    rcases h.rebooting with h | ⟨packet, cmd', token, hpacket, -, hdec, hb, h⟩
    · exact h
    · rw [htransfer] at hpacket
      rw [← Transfer.bulkOut.inj hpacket, Command.decode_encode] at hdec
      rw [h, hb, ← (Prod.mk.inj (Option.some.inj hdec)).1, hno]

/-- The data of a write, whatever comes of it. -/
theorem contained_data {addr size : UInt32} {data : List UInt8} {timeout : Nat}
    (hb : b.stage = .takesData addr size)
    (h : board.Reacts b (.out data .writeData timeout) c b') :
    Contained board (.write addr size) b b' := by
  constructor
  · intro hlocal a _ ha
    obtain ⟨job, hjob, hin⟩ := h.touches hlocal ha
    simp only [Bootsel.starts, hb, Request.out, Option.some.injEq] at hjob
    subst hjob
    obtain ⟨hlo, hhi⟩ := hin
    rw [List.length_take] at hhi
    exact ⟨hlo, by omega⟩
  · intro hwrite
    rcases h.stage with h | h | ⟨_, _, _, _, -, h, -⟩
    · exact Stage.harmless_of_ne h
    · rw [h, hb]
      exact hwrite addr size rfl
    · simp [hb] at h
  · intro _
    rcases h.rebooting with h | ⟨_, _, _, -, h, -⟩
    · exact h
    · simp [hb] at h

/-- The last transfer of a command, if it is issued at all. -/
theorem issued_last {tr : BusTrace} (h : Issued Request.failure [r] tr)
    (hserves : Peer.Serves board.Reacts b tr b') (hstarts : b.starts r.transfer = none)
    (hidle : b.stage ≠ .idle) (hb : b.stage.Harmless) : Untouched b b' := by
  have hone : ∀ {c : Completion}, Peer.Serves board.Reacts b [(r, c)] b' → Untouched b b' := by
    intro c hserves
    have hreact := Peer.serves_singleton.mp hserves
    exact hreact.quiet hstarts hidle hb
  cases h with
  | nil =>
      obtain rfl := Peer.serves_nil.mp hserves
      exact ⟨rfl, hb, rfl⟩
  | last => exact hone hserves
  | next _ h =>
      cases h
      exact hone hserves

/-- A command that was cut off, or that failed. -/
theorem script_issued {d : Device} {cmd : Command} {data : List UInt8} {tr : BusTrace}
    (h : Issued Request.failure (cmd.script d data) tr)
    (hserves : Peer.Serves board.Reacts b tr b') (hb : b.stage.Harmless) :
    Contained board cmd b b' := by
  cases h with
  | nil =>
      obtain rfl := Peer.serves_nil.mp hserves
      exact Untouched.contained ⟨rfl, hb, rfl⟩
  | last =>
      have hreact := Peer.serves_singleton.mp hserves
      exact contained_packet hreact hb
  | next hf h =>
  obtain ⟨b₁, hreact, hserves⟩ := Peer.serves_cons.mp hserves
  have hpacket := contained_packet hreact hb
  obtain ⟨-, -, htaken⟩ := (hreact.serve hf).packet hb
  cases htaken with
  | command hphase hchange =>
      simp only [Command.rest, hphase] at h
      exact hpacket.trans (issued_last h hserves rfl (by simp) (by simp))
  | @write addr size =>
      simp only [Command.rest, Command.dataPhase] at h
      cases h with
      | nil =>
          obtain rfl := Peer.serves_nil.mp hserves
          exact hpacket
      | last =>
          have hreact := Peer.serves_singleton.mp hserves
          have hdata := contained_data rfl hreact
          exact ⟨hdata.flash, hdata.stage, hdata.rebooting⟩
      | next hf h =>
          obtain ⟨b₂, hreact, hserves⟩ := Peer.serves_cons.mp hserves
          have hdata := contained_data rfl hreact
          have hwrite : Contained board (.write addr size) b b₂ :=
            ⟨hdata.flash, hdata.stage, hdata.rebooting⟩
          have hb₂ : b₂.stage = .sendsAck := by
            rw [((hreact.serve hf).tookData rfl).2]
          exact hwrite.trans (issued_last h hserves (by simp [Bootsel.starts, hb₂])
            (by simp [hb₂]) (by simp [hb₂]))
  | @read addr size =>
      simp only [Command.rest, Command.dataPhase] at h
      cases h with
      | nil =>
          obtain rfl := Peer.serves_nil.mp hserves
          exact hpacket
      | last =>
          have hreact := Peer.serves_singleton.mp hserves
          exact hpacket.trans (hreact.quiet rfl (by simp) (by simp))
      | next hf h =>
          obtain ⟨b₂, hreact, hserves⟩ := Peer.serves_cons.mp hserves
          obtain ⟨-, rfl⟩ := (hreact.serve hf).sentData rfl
          have hlast := issued_last h hserves rfl (by simp) (by simp)
          exact hpacket.trans ⟨hlast.mem, hlast.stage, hlast.rebooting⟩

/-- A command that asks for no change, cut off or failed, on a device that was
idle. Nothing is asked of the board. -/
theorem script_quiet {d : Device} {cmd : Command} {data : List UInt8} {tr : BusTrace}
    (hjob : cmd.job data = none) (h : Issued Request.failure (cmd.script d data) tr)
    (hserves : Peer.Serves board.Reacts b tr b') (hb : b.stage = .idle) : b'.mem = b.mem := by
  have hprompt : b.starts (cmd.packet d).transfer = none := by
    simp only [Bootsel.starts, hb, Command.packet, Request.out, Command.decode_encode,
      Option.bind_some, Command.prompt]
    cases cmd <;> first | rfl | simp [Command.job] at hjob
  cases h with
  | nil => rw [Peer.serves_nil.mp hserves]
  | last =>
      have hreact := Peer.serves_singleton.mp hserves
      exact hreact.mem_eq hprompt
  | next hf h =>
  obtain ⟨b₁, hreact, hserves⟩ := Peer.serves_cons.mp hserves
  have hmem := hreact.mem_eq hprompt
  obtain ⟨-, -, htaken⟩ := (hreact.serve hf).packet (by simp [hb])
  rw [← hmem]
  cases htaken with
  | command hphase _ =>
      simp only [Command.rest, hphase] at h
      exact (issued_last h hserves rfl (by simp) (by simp)).mem
  | write => simp [Command.job] at hjob
  | @read addr size =>
      simp only [Command.rest, Command.dataPhase] at h
      cases h with
      | nil => rw [Peer.serves_nil.mp hserves]
      | last =>
          have hreact := Peer.serves_singleton.mp hserves
          exact hreact.mem_eq rfl
      | next hf h =>
          obtain ⟨b₂, hreact, hserves⟩ := Peer.serves_cons.mp hserves
          obtain ⟨-, rfl⟩ := (hreact.serve hf).sentData rfl
          exact (issued_last h hserves rfl (by simp) (by simp)).mem

end Issued

end PicotoolRs
