import PicotoolRs.Device.Framing
import PicotoolRs.Load.Plan
import PicotoolRs.Run.Detect
import PicotoolRs.Run.Image

/-!
# PicotoolRs.Run.Framing

The device stays in step over a detection and a load.

Every step of the two has a data phase of the length it declares, which is never
zero (`carries_of_loadStep`), so each of its scripts takes the device from idle
to idle (`steps_framed`), whatever the maximum packet size.
-/

namespace PicotoolRs

open Lib Constants

/-- The data phase of the step is as its packet declares. -/
def Step.Carries (step : Step) : Prop := step.cmd.Carries step.data

/-- A length that fits a word is declared as it is. -/
theorem declared_pos {len : Nat} (hpos : 0 < len) (hlt : len < 2 ^ 32) :
    0 < (U32.ofUsize len).toNat ∧ len = (U32.ofUsize len).toNat := by
  rw [U32.toNat_ofUsize hlt]
  exact ⟨hpos, rfl⟩

theorem carries_detectSteps : ∀ step ∈ detectSteps, step.Carries := by
  simp [detectSteps, stubSteps, Step.Carries, Step.cmd, Step.data, Command.Carries,
    Command.dataPhase, flashIdStub, U32.ofUsize]

/-- Every step of a load carries what it declares. -/
theorem carries_of_loadStep {erases : List (UInt32 × UInt32)} {segs : List Segment} {step : Step}
    (h : LoadStep erases segs step) : step.Carries := by
  have hpiece : ∀ p ∈ pieces segs, 0 < p.data.length ∧ p.data.length < 2 ^ 32 := fun p hp => by
    obtain ⟨hne, hle⟩ := length_le_of_mem_pieces hp
    exact ⟨List.length_pos_of_ne_nil hne, hle.trans_lt (by decide)⟩
  cases h with
  | flashWrite hp =>
      obtain ⟨hpos, hlt⟩ := hpiece _ hp
      exact declared_pos hpos hlt
  | compare hp =>
      obtain ⟨hpos, hlt⟩ := hpiece _ hp
      exact (declared_pos hpos hlt).1
  | _ => trivial

/-! ### Steps -/

section Steps

variable {steps : List Step} {d d' : Device} {tr : BusTrace} {o : Outcome LoadError Unit}
  (h : LoopRuns Step.perform steps d tr o d') (hfits : ∀ step ∈ steps, step.Fits)
  (hmax : 0 < d.inMaxPacket) (hs : ∀ ev ∈ tr, Succeeded ev)

include h hfits hmax hs

/-- Steps keep the device in step. -/
theorem steps_framed (hcarries : ∀ step ∈ steps, step.Carries) :
    Phase.idle.after d.inMaxPacket (tr.map Prod.fst) = some .idle := by
  induction h with
  | nil => rfl
  | @cons step steps d d₁ d' t₁ t₂ o hstep _ ih =>
      rw [List.forall_mem_cons] at hfits hcarries
      rw [List.forall_mem_append] at hs
      obtain ⟨rfl, hrun⟩ := perform_runs hfits.1 hstep
      rw [List.map_append, hrun.complete hmax hs.1, Phase.after_append]
      have hscript := script_framed (d := d.bump) hmax hcarries.1
      rw [Device.bump_inMaxPacket] at hscript
      rw [Step.script, hscript, Option.bind_some]
      exact ih hfits.2 hmax hs.2 hcarries.2
  | @stop step steps d d' tr o hstep _ =>
      obtain ⟨rfl, hrun⟩ := perform_runs (hfits step (by simp)) hstep
      rw [hrun.complete hmax hs]
      exact script_framed (d := d.bump) hmax (hcarries step (by simp))

/-- What follows the packet of a command. -/
theorem after_packet (hcarries : ∀ step ∈ steps, step.Carries) {pre post : BusTrace}
    {ev : Request × Completion} {cmd : Command} (htr : tr = pre ++ ev :: post)
    (hev : ev.1.IsPacketOf cmd) :
    ∃ d₁ data, d₁.inMaxPacket = d.inMaxPacket ∧ cmd.Carries data ∧
      cmd.rest d₁ data <+: post.map Prod.fst := by
  subst htr
  obtain ⟨done, step, rest, d₁, d₂, t₁, t₂, t₃, o₁, rfl, rfl, hdone, hstep, hend⟩ := h.split_at
  have hd := (steps_ne_panic hdone (fun s hs => hfits s (by simp [hs])) hmax).2
  obtain ⟨-, hrun⟩ := perform_runs (hfits step (by simp)) hstep
  obtain ⟨rfl, hpacket⟩ := hrun.packet_first ⟨_, hev⟩
  obtain rfl : step.cmd = cmd := by
    rw [Request.IsPacketOf, hpacket, role_packet] at hev
    exact Option.some.inj (Role.packet.inj hev)
  obtain ⟨t₄, rfl⟩ : ∃ t₄, post = t₃ ++ t₄ := by
    rcases hend with ⟨-, t₄, hpost, -⟩ | ⟨-, hpost, -⟩
    · exact ⟨t₄, hpost⟩
    · exact ⟨[], by rw [hpost, List.append_nil]⟩
  have hscript := hrun.complete (by rwa [Device.bump_inMaxPacket, hd])
    fun e he => hs e (by
      rw [List.nil_append] at he
      rcases List.mem_cons.mp he with rfl | he
      · simp
      · simp [he])
  rw [List.nil_append, List.map_cons, Step.script, Command.script, List.cons.injEq] at hscript
  refine ⟨d₁.bump, step.data, hd, hcarries step (by simp), ?_⟩
  rw [List.map_append, hscript.2]
  exact List.prefix_append _ _

end Steps

/-! ### The detection and the load -/

/-- A device that looks at nothing but the headers is in step with the trace. -/
structure Framed (mps : Nat) (tr : BusTrace) : Prop where
  /-- It takes part in every transfer, and is idle in the end. -/
  inStep : Phase.idle.after mps (tr.map Prod.fst) = some .idle
  /-- A write declares the bytes that are sent next, and there are some. -/
  write : ∀ pre ev post addr n, tr = pre ++ ev :: post → ev.1.IsPacketOf (.write addr n) →
    0 < n.toNat ∧ ∃ ev' post' buf, post = ev' :: post' ∧ ev'.1.transfer = .bulkOut buf ∧
      buf.length = n.toNat ∧ ev'.2.actualLen = n.toNat
  /-- A read declares the bytes that end the next transfer, and there are some. -/
  read : ∀ pre ev post addr n, tr = pre ++ ev :: post → ev.1.IsPacketOf (.read addr n) →
    0 < n.toNat ∧ ∃ ev' post' room, post = ev' :: post' ∧ ev'.1.transfer = .bulkIn room ∧
      Bulk.receive mps room (Bulk.packets mps n.toNat) = some (n.toNat, []) ∧
      n.toNat ≤ ev'.2.actualLen

/-- A transfer that succeeded has moved a length that was checked for. -/
theorem length_of_succeeded {ev : Request × Completion} (hs : Succeeded ev) {n : Nat} :
    (ev.1.check = .exactly n → ev.2.actualLen = n) ∧
      (ev.1.check = .atLeast n → n ≤ ev.2.actualLen) := by
  unfold Succeeded Request.failure at hs
  constructor
  · intro hcheck
    cases hstatus : ev.2.status <;> simp_all
  · intro hcheck
    cases hstatus : ev.2.status <;> simp_all

/-- The first of the transfers that follow. -/
theorem head_of_prefix {r : Request} {rs : List Request} {tr : BusTrace}
    (h : r :: rs <+: tr.map Prod.fst) : ∃ ev tr', tr = ev :: tr' ∧ ev.1 = r := by
  cases tr with
  | nil => simp at h
  | cons ev tr' =>
      rw [List.map_cons, List.cons_prefix_cons] at h
      exact ⟨ev, tr', rfl, h.1.symm⟩

theorem framed_of_steps {steps : List Step} {d d' : Device} {tr : BusTrace}
    {o : Outcome LoadError Unit} (h : LoopRuns Step.perform steps d tr o d')
    (hfits : ∀ step ∈ steps, step.Fits) (hcarries : ∀ step ∈ steps, step.Carries)
    (hmax : 0 < d.inMaxPacket) (hs : ∀ ev ∈ tr, Succeeded ev) : Framed d.inMaxPacket tr where
  inStep := steps_framed h hfits hmax hs hcarries
  write := by
    intro pre ev post addr n htr hev
    obtain ⟨d₁, data, -, ⟨hpos, hlen⟩, hrest⟩ := after_packet h hfits hmax hs hcarries htr hev
    obtain ⟨ev', post', rfl, hout⟩ := head_of_prefix hrest
    have hmoved := (length_of_succeeded (hs ev' (by simp [htr]))).1 (by rw [hout]; rfl)
    exact ⟨hpos, ev', post', data, rfl, by rw [hout]; rfl, hlen, hmoved.trans hlen⟩
  read := by
    intro pre ev post addr n htr hev
    obtain ⟨d₁, data, hd₁, hpos, hrest⟩ := after_packet h hfits hmax hs hcarries htr hev
    obtain ⟨ev', post', rfl, hin⟩ := head_of_prefix hrest
    have hmoved := (length_of_succeeded (hs ev' (by simp [htr]))).2 (by rw [hin]; rfl)
    have hexact := Bulk.receive_packets hmax hpos
    rw [Bulk.packetCount, ← hd₁] at hexact
    rw [← hd₁]
    exact ⟨hpos, ev', post', _, rfl, by rw [hin]; rfl, hexact, hmoved⟩

/-- A load performs steps that carry what they declare. -/
theorem load_steps {segs : List Segment} {verify : Bool} {d d' : Device} {tr : BusTrace}
    {o : Outcome LoadError Unit} (hfits : FitsAddressSpace segs)
    (h : (load segs verify).Runs d tr o d') :
    ∃ steps o', LoopRuns Step.perform steps d tr o' d' ∧ (∀ step ∈ steps, step.Fits) ∧
      ∀ step ∈ steps, step.Carries := by
  cases hplan : planErase segs with
  | none =>
      obtain ⟨o', hloop, -⟩ := load_runs_of_no_plan hplan h
      refine ⟨_, o', hloop, by simp [Step.Fits], ?_⟩
      simp [Step.Carries, Step.cmd, Command.Carries, Command.dataPhase]
  | some erases =>
      rw [load_eq verify hfits hplan, Session.runs_forM] at h
      exact ⟨_, o, h, loadPlan_fits erases segs verify,
        fun step hstep => carries_of_loadStep (loadStep_of_mem hstep)⟩

/-- Over a detection and a load of an accepted file, all transfers of which
succeed, the device is in step with the host. -/
theorem detect_load_framed {bytes : List UInt8} {bound : UInt32} {segs : List Segment}
    {verify : Bool} {d d₁ d' : Device} {t₁ t₂ : BusTrace}
    {r : Outcome DeviceError (Option UInt32)} {o : Outcome LoadError Unit}
    (hparse : parse bytes bound = .ok segs) (hmax : 0 < d.inMaxPacket)
    (h₁ : Device.detectFlashSize.Runs d t₁ r d₁) (h₂ : (load segs verify).Runs d₁ t₂ o d')
    (hs : ∀ ev ∈ t₁ ++ t₂, Succeeded ev) : Framed d.inMaxPacket (t₁ ++ t₂) := by
  obtain ⟨o₁, hdetect, -⟩ := detectFlashSize_runs h₁
  obtain ⟨steps, o₂, hload, hfits, hcarries⟩ :=
    load_steps (parse_represents hparse).fitsAddressSpace h₂
  have hok : o₁ = .ok () :=
    steps_ok_of_complete hdetect detectSteps_fits hmax
      (fun ev hev => hs ev (List.mem_append_left _ hev)) (by simp [detectSteps, stubSteps])
  rw [hok] at hdetect
  -- one loop over the steps of both
  exact framed_of_steps (hdetect.append hload)
    (List.forall_mem_append.mpr ⟨detectSteps_fits, hfits⟩)
    (List.forall_mem_append.mpr ⟨carries_detectSteps, hcarries⟩) hmax hs

theorem detect_load_framed_twoSectors :
    let detect := (Device.detectFlashSize ⟨0, 64, 0⟩).exec Request.completed
    let loaded := (load twoSectors true detect.2.2).exec Request.completed
    Framed 64 (detect.1 ++ loaded.1) :=
  detect_load_framed (d := ⟨0, 64, 0⟩) parse_twoSectorFile (by decide)
    (Session.exec_runs Request.completed _ _) (Session.exec_runs Request.completed _ _)
    (by decide +kernel)

end PicotoolRs
