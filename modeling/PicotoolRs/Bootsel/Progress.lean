import PicotoolRs.Bootsel.Load

/-!
# PicotoolRs.Bootsel.Progress

Steps on a device without faults.

A step that the device is ready for goes through (`step_obeyed`). `Through` is
the same for sequences, with what is known of the device before and after: from
single steps it goes to sequences (`Through.append`) and to loops that keep an
invariant (`Through.all`).
-/

namespace PicotoolRs

open Lib Constants

/-- The device can carry out the step: it waits for a packet and accepts this one,
something can come of the change it asks for, and what is compared is in memory.
-/
structure Board.Ready (board : Board) (b : Bootsel) (step : Step) : Prop where
  idle : b.stage = .idle
  accepts : board.Accepts b step.cmd
  able : ∃ m, board.Changes (step.cmd.job step.data) b.mem m
  agrees : ∀ piece, step = .compare piece →
    content b.mem piece.addr piece.data.length = piece.data

/-! ### Transfers -/

section Transfers

variable {board : Board} {b b' : Bootsel} {c : Completion}

/-- A device without faults takes part in a transfer if it can. -/
theorem Board.Obeys.serve {r : Request} (h : board.Obeys b r c b')
    (hcan : ∃ c b₁, board.Serve b r.transfer c b₁) : board.Serve b r.transfer c b' := by
  cases h with
  | served h => exact h
  | stalled hno =>
      obtain ⟨c, b₁, hserve⟩ := hcan
      exact absurd hserve (hno c b₁)

/-- A transfer out is taken in full. -/
theorem Board.Serve.sent {buf : List UInt8} (h : board.Serve b (.bulkOut buf) c b') :
    c = ⟨.ok (), buf.length, []⟩ := by
  cases h <;> rfl

/-- An acknowledgement is never too short. -/
theorem Board.Serve.ok {t : Transfer} (h : board.Serve b t c b') : c.status = .ok () := by
  cases h <;> rfl

/-- Data is sent in full. -/
theorem Board.Serve.filled {addr size : UInt32} {room : Nat} (h : board.Serve b (.bulkIn room) c b')
    (hb : b.stage = .sendsData addr size) : c.actualLen = size.toNat := by
  cases h with
  | sendData hstage _ =>
      rw [hb, Stage.sendsData.injEq] at hstage
      rw [hstage.2]
  | sendAck hstage => simp [hb] at hstage

/-- The first request of an attempt, over a device that can take part in it. -/
theorem attempt_obeyed {r : Request} {rs : List Request} {tr : BusTrace}
    {o : Outcome DeviceError Unit}
    (h : Attempt Request.failure Request.Stuck (r :: rs) tr o) (hstuck : ¬ r.Stuck)
    (hserves : Peer.Serves board.Obeys b tr b') (hcan : ∃ c b₁, board.Serve b r.transfer c b₁)
    (hpass : ∀ c b₁, board.Serve b r.transfer c b₁ → r.failure c = none) :
    ∃ c t b₁, board.Serve b r.transfer c b₁ ∧ Peer.Serves board.Obeys b₁ t b' ∧
      Attempt Request.failure Request.Stuck rs t o := by
  cases h with
  | halt hr => exact absurd hr hstuck
  | stop hf =>
      obtain ⟨b₁, hobey, -⟩ := Peer.serves_cons.mp hserves
      simp [hpass _ _ (hobey.serve hcan)] at hf
  | next _ h =>
      obtain ⟨b₁, hobey, hserves⟩ := Peer.serves_cons.mp hserves
      exact ⟨_, _, b₁, hobey.serve hcan, hserves, h⟩

theorem out_passes {buf : List UInt8} {op : Op} {timeout : Nat}
    (h : board.Serve b (.bulkOut buf) c b') : (Request.out buf op timeout).failure c = none := by
  rw [h.sent]
  simp [Request.failure, Request.out]

theorem any_passes {r : Request} {t : Transfer} (hcheck : r.check = .any)
    (h : board.Serve b t c b') : r.failure c = none := by
  simp [Request.failure, hcheck, h.ok]

/-- The room for data is enough. -/
theorem le_room {d : Device} (hmax : 0 < d.inMaxPacket) (len : Nat) :
    len ≤ max (len / d.inMaxPacket + if len % d.inMaxPacket = 0 then 0 else 1) 1 *
      d.inMaxPacket := by
  have hdiv := Nat.div_add_mod len d.inMaxPacket
  have hmod := Nat.mod_lt len hmax
  refine le_trans ?_ (Nat.mul_le_mul_right _ (le_max_left _ 1))
  rw [Nat.add_mul, Nat.mul_comm]
  split <;> omega

/-- A device that waits for a packet can take that of a command it accepts. -/
theorem can_take_packet {cmd : Command} {data : List UInt8} (d : Device) (hidle : b.stage = .idle)
    (hacc : board.Accepts b cmd) (hable : ∃ m, board.Changes (cmd.job data) b.mem m) :
    ∃ c b₁, board.Serve b (cmd.packet d).transfer c b₁ := by
  have hdecode : Command.decode (cmd.encode d.token) = some (cmd, d.token) :=
    Command.decode_encode cmd d.token
  obtain ⟨m, hm⟩ := hable
  cases hphase : cmd.dataPhase with
  | none =>
      rw [Command.job_of_no_data hphase] at hm
      exact ⟨_, _, .command hidle hdecode hacc hphase hm⟩
  | hostToDevice n =>
      cases cmd <;> simp only [Command.dataPhase, reduceCtorEq] at hphase
      exact ⟨_, _, .write hidle hdecode hacc⟩
  | deviceToHost n =>
      cases cmd <;> simp only [Command.dataPhase, reduceCtorEq] at hphase
      exact ⟨_, _, .read hidle hdecode hacc⟩

/-- A command that the device can carry out goes through. -/
theorem script_obeyed {d : Device} {cmd : Command} {data : List UInt8} {tr : BusTrace}
    {o : Outcome DeviceError Unit}
    (h : Attempt Request.failure Request.Stuck (cmd.script d data) tr o)
    (hserves : Peer.Serves board.Obeys b tr b') (hidle : b.stage = .idle)
    (hacc : board.Accepts b cmd) (hable : ∃ m, board.Changes (cmd.job data) b.mem m)
    (hcarries : cmd.Carries data) (hmax : 0 < d.inMaxPacket) : o = .ok () := by
  have hstuck : ∀ r ∈ cmd.script d data, ¬ r.Stuck := fun r hr =>
    Command.not_stuck hr (.inr hmax)
  have hcan := can_take_packet d hidle hacc hable
  obtain ⟨m, hm⟩ := hable
  obtain ⟨c, t, b₁, hserve, hserves, h⟩ := attempt_obeyed h (hstuck _ List.mem_cons_self)
    hserves hcan fun _ _ => out_passes
  obtain ⟨-, -, htaken⟩ := hserve.packet (by simp [hidle])
  have hstuck' : ∀ r ∈ cmd.rest d data, ¬ r.Stuck := fun r hr =>
    hstuck r (List.mem_cons_of_mem _ hr)
  cases htaken with
  | command hphase _ =>
      simp only [Command.rest, hphase] at h hstuck'
      obtain ⟨_, _, _, -, -, h⟩ := attempt_obeyed h (hstuck' _ List.mem_cons_self) hserves
        ⟨_, _, .sendAck rfl⟩ fun _ _ => any_passes rfl
      cases h
      rfl
  | @write addr size =>
      simp only [Command.rest, Command.dataPhase] at h hstuck'
      obtain ⟨_, t, b₂, hserve, hserves, h⟩ := attempt_obeyed h (hstuck' _ (by simp)) hserves
        ⟨_, _, .takeData rfl hcarries.2 hm⟩ fun _ _ => out_passes
      have hack : b₂.stage = .sendsAck := by
        rw [(hserve.tookData rfl).2]
      obtain ⟨_, _, _, -, -, h⟩ := attempt_obeyed h (hstuck' _ (by simp)) hserves
        ⟨_, _, .sendAck hack⟩ fun _ _ => any_passes rfl
      cases h
      rfl
  | @read addr size =>
      simp only [Command.rest, Command.dataPhase] at h hstuck'
      have hpass : ∀ c b₂, board.Serve { b with stage := .sendsData addr size }
          (Request.inData d size.toNat .readData commandTimeout).transfer c b₂ →
          (Request.inData d size.toNat .readData commandTimeout).failure c = none := by
        intro c b₂ hserve
        simp [Request.failure, Request.inData, hserve.ok, hserve.filled rfl]
      obtain ⟨_, t, b₂, hserve, hserves, h⟩ := attempt_obeyed h (hstuck' _ (by simp)) hserves
        ⟨_, _, .sendData rfl (le_room hmax _)⟩ hpass
      have hack : b₂.stage = .takesAck := by
        rw [(hserve.sentData rfl).2]
      obtain ⟨_, _, _, -, -, h⟩ := attempt_obeyed h (hstuck' _ (by simp)) hserves
        ⟨_, _, .takeAck hack⟩ fun _ _ => any_passes rfl
      cases h
      rfl

end Transfers

/-! ### Steps -/

section Steps

variable {board : Board} {d d' : Device} {tr : BusTrace} {b b' : Bootsel}

/-- A step that the device is ready for. -/
theorem step_obeyed {step : Step} {o : Outcome LoadError Unit} (h : StepRun d step tr o)
    (hserves : Peer.Serves board.Obeys b tr b') (hready : board.Ready b step)
    (hfits : step.Fits) (hcarries : step.Carries) (hmax : 0 < d.inMaxPacket) :
    o = .ok () ∧ board.Passed step.cmd step.data tr b b' ∧ step.Agrees tr := by
  have hok : ∀ {o' : Outcome DeviceError Unit},
      Attempt Request.failure Request.Stuck (step.script d) tr o' → o' = .ok () := fun ha =>
    script_obeyed ha hserves hready.idle hready.accepts hready.able hcarries hmax
  have hpassed : ∀ {o' : Outcome DeviceError Unit},
      Attempt Request.failure Request.Stuck (step.script d) tr o' →
        board.Passed step.cmd step.data tr b b' := fun ha => by
    rw [hok ha] at ha
    exact script_passed ha (hserves.mono fun _ _ _ _ => Board.Obeys.reacts)
      (by simp [hready.idle])
  cases h with
  | passed ha hagrees => exact ⟨rfl, hpassed ha, hagrees⟩
  | rejected ha _ => exact absurd (hok ha) (by simp)
  | halted ha _ => exact absurd (hok ha) (by simp)
  | rebooting ha _ => exact absurd (hok ha) (by simp)
  | @mismatch piece _ ha hne =>
      -- what was received is what is in memory
      have hread := (hpassed ha).received _ _ rfl
      rw [U32.toNat_ofUsize hfits, hready.agrees piece rfl] at hread
      exact absurd hread hne

/-- From a state in `I`, a device without faults carries out the steps and is left
in a state in `J`. -/
def Board.Through (board : Board) (I : Bootsel → Prop) (steps : List Step) (J : Bootsel → Prop) :
    Prop :=
  ∀ ⦃d d' : Device⦄ ⦃tr : BusTrace⦄ ⦃o : Outcome LoadError Unit⦄ ⦃b b' : Bootsel⦄,
    0 < d.inMaxPacket → I b → LoopRuns Step.perform steps d tr o d' →
    Peer.Serves board.Obeys b tr b' → o = .ok () ∧ board.PassedAll steps tr b b' ∧ J b'

namespace Board.Through

variable {I J K : Bootsel → Prop} {step : Step} {steps steps' : List Step}

/-- A single step. -/
theorem single (hfits : step.Fits) (hcarries : step.Carries)
    (hready : ∀ b, I b → board.Ready b step)
    (hafter : ∀ tr b b', I b → board.Passed step.cmd step.data tr b b' → J b') :
    board.Through I [step] J := by
  intro d d' tr o b b' hmax hI h hserves
  cases h with
  | cons hstep hnil =>
      cases hnil
      rw [List.append_nil] at hserves ⊢
      obtain ⟨rfl, hrun⟩ := perform_runs hfits hstep
      obtain ⟨-, hpassed, hagrees⟩ := step_obeyed hrun hserves (hready b hI) hfits hcarries hmax
      have hone := Board.PassedAll.cons hpassed hagrees .nil
      rw [List.append_nil] at hone
      exact ⟨rfl, hone, hafter _ b b' hI hpassed⟩
  | stop hstep ho =>
      obtain ⟨rfl, hrun⟩ := perform_runs hfits hstep
      exact absurd (step_obeyed hrun hserves (hready b hI) hfits hcarries hmax).1 ho

/-- One sequence after another. -/
theorem append (h₁ : board.Through I steps J) (h₂ : board.Through J steps' K)
    (hfits : ∀ step ∈ steps, step.Fits) : board.Through I (steps ++ steps') K := by
  intro d d' tr o b b' hmax hI h hserves
  rcases h.split_append with ⟨d₁, t₁, t₂, rfl, hrun₁, hrun₂⟩ | ⟨ho, hrun⟩
  · obtain ⟨b₁, hserves₁, hserves₂⟩ := Peer.serves_append.mp hserves
    obtain ⟨-, hpassed₁, hJ⟩ := h₁ hmax hI hrun₁ hserves₁
    have hd := (steps_ne_panic hrun₁ hfits hmax).2
    obtain ⟨ho, hpassed₂, hK⟩ := h₂ (hd ▸ hmax) hJ hrun₂ hserves₂
    exact ⟨ho, hpassed₁.append hpassed₂, hK⟩
  · exact absurd (h₁ hmax hI hrun hserves).1 ho

/-- Nothing to do. -/
theorem nil : board.Through I [] I := by
  intro d d' tr o b b' _ hI h hserves
  cases h
  obtain rfl := Peer.serves_nil.mp hserves
  exact ⟨rfl, .nil, hI⟩

/-- Steps that all keep an invariant. -/
theorem all (hfits : ∀ step ∈ steps, step.Fits)
    (h : ∀ step ∈ steps, board.Through I [step] I) : board.Through I steps I := by
  induction steps with
  | nil => exact nil
  | cons step steps ih =>
      rw [List.forall_mem_cons] at hfits h
      exact h.1.append (ih hfits.2 h.2) (by simpa using hfits.1)

/-- What is known of the steps from their effect on memory. -/
theorem strengthen (h : board.Through I steps J)
    (hK : ∀ tr b b', I b → board.PassedAll steps tr b b' → J b' → K b') :
    board.Through I steps K := by
  intro d d' tr o b b' hmax hI hrun hserves
  obtain ⟨ho, hpassed, hJ⟩ := h hmax hI hrun hserves
  exact ⟨ho, hpassed, hK tr b b' hI hpassed hJ⟩

end Board.Through

end Steps

end PicotoolRs
