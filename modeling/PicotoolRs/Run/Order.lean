import PicotoolRs.Load.Order
import PicotoolRs.Run.Open

/-!
# PicotoolRs.Run.Order

The order of a whole run.

Before the load a run may write to the device (the stub of the detection), but
not to flash, and it does not reboot. The load is reached only over a device
that was let in and with the whole file parsed; from there on it keeps the order
of `LoadOrder`.
-/

namespace PicotoolRs

open Lib Constants

/-! ### Before the load -/

/-- The command modifies flash: it erases, or writes to an address of flash. -/
def Command.Destructive : Command → Prop
  | .flashErase _ _ => True
  | .write addr len => ∃ a, addr.toNat ≤ a ∧ a < addr.toNat + len.toNat ∧
      flashStart.toNat ≤ a ∧ a < flashEnd.toNat
  | _ => False

/-- The command reboots the device. -/
def Command.Reboots : Command → Prop
  | .reboot _ _ _ => True
  | _ => False

/-- Every packet is that of a command that neither modifies flash nor reboots.
-/
def Harmless (tr : BusTrace) : Prop :=
  ∀ ev ∈ tr, ev.1.IsPacket →
    ∃ cmd : Command, ev.1.IsPacketOf cmd ∧ ¬ cmd.Destructive ∧ ¬ cmd.Reboots

theorem NoPackets.harmless {tr : BusTrace} (h : NoPackets tr) : Harmless tr :=
  fun ev hev hpacket => absurd hpacket (h ev hev)

theorem Harmless.append {t₁ t₂ : BusTrace} (h₁ : Harmless t₁) (h₂ : Harmless t₂) :
    Harmless (t₁ ++ t₂) := by
  intro ev hev hpacket
  rcases List.mem_append.mp hev with hev | hev
  · exact h₁ ev hev hpacket
  · exact h₂ ev hev hpacket

/-- The stub is written to RAM, above flash. -/
theorem detectSteps_harmless : ∀ step ∈ detectSteps,
    ¬ step.cmd.Destructive ∧ ¬ step.cmd.Reboots := by
  intro step hstep
  have hstub : flashEnd.toNat ≤ stubAddr.toNat := by decide
  simp only [detectSteps, stubSteps, List.mem_append, List.mem_cons, List.not_mem_nil,
    or_false] at hstep
  rcases hstep with (rfl | rfl | rfl | rfl) | rfl
  case inl.inr.inr.inl =>
    refine ⟨fun hwrite => ?_, id⟩
    obtain ⟨a, hlo, -, -, hhi⟩ := hwrite
    exact absurd (hstub.trans hlo) (by omega)
  all_goals exact ⟨id, id⟩

theorem detection_harmless {d d' : Device} {tr : BusTrace} {r : Outcome DeviceError (Option UInt32)}
    (h : Device.detectFlashSize.Runs d tr r d') : Harmless tr := by
  obtain ⟨o, hloop, -⟩ := detectFlashSize_runs h
  intro ev hev hpacket
  obtain ⟨step, hstep, hcmd⟩ := step_of_packet hloop detectSteps_fits hev hpacket
  exact ⟨step.cmd, hcmd, detectSteps_harmless step hstep⟩

/-! ### The whole run -/

/-- The opened device was let in: it has the expected identity, or
`--any-device` was given. -/
def Admitted (w : World) (args : LoadArgs) : Prop :=
  ∃ usb, Opens w usb (resolveFd w args.fd) ∧
    (args.anyDevice = true ∨ (usb.vendorId = vendorId ∧ usb.productId = productId))

/-- The runs in the safe order. -/
inductive SafeRun (w : World) (args : LoadArgs) : BusTrace → Outcome RunError Unit → Prop
  /-- It failed before the load and has modified nothing. -/
  | early {tr : BusTrace} {o : Outcome RunError Unit} : Harmless tr → o ≠ .ok () →
      (∀ e, o ≠ .err (.flashing e)) → SafeRun w args tr o
  /-- It ended with the load of the whole file, and has modified nothing before.
  -/
  | loaded {before loading : BusTrace} {bytes : List UInt8} {bound : UInt32}
      {segs : List Segment} {erases : List (UInt32 × UInt32)} {d d' : Device}
      {o : Outcome LoadError Unit} :
      Harmless before → Admitted w args → w.readFile args.file = .ok bytes →
      parse bytes bound = .ok segs → planErase segs = some erases →
      (load segs args.verify).Runs d loading o d' →
      LoadOrder erases segs args.verify loading o →
      SafeRun w args (before ++ loading) (o.mapErr .flashing)

/-- Every run of the command is in the safe order, whatever the environment and
the device answer. -/
theorem safe_order {w : World} {argv : List Str} {args : LoadArgs} {s s' : Unit} {tr : BusTrace}
    {o : Outcome RunError Unit} (h : (runLoad w argv args).Runs s tr o s') :
    SafeRun w args tr o := by
  cases runLoad_runs h with
  | unopened hno hok hflashing => exact .early hno.harmless hok hflashing
  | @opened t₁ t₂ _ bytes usb d hno hread husb hconnect hflash =>
      have hadmitted : Admitted w args := by
        refine ⟨usb, husb, ?_⟩
        by_cases hany : args.anyDevice = true
        · exact .inl hany
        · exact .inr (connect_ok hconnect (by simpa using hany))
      cases hflash with
      | panicked hdetect =>
          exact .early (hno.harmless.append (detection_harmless hdetect)) (by simp) (by simp)
      | rejected hdetect _ _ =>
          exact .early (hno.harmless.append (detection_harmless hdetect)) (by simp) (by simp)
      | loaded hdetect _ hparse hplan hload =>
          have hrep := parse_represents hparse
          have horder := loadOrder hload hrep.fitsAddressSpace hrep.gap
          rw [← Session.runs_forM, ← load_eq args.verify hrep.fitsAddressSpace hplan] at hload
          rw [← List.append_assoc]
          exact .loaded (hno.harmless.append (detection_harmless hdetect)) hadmitted hread hparse
            hplan hload horder

/-- A system with one device in BOOTSEL mode, on which every call succeeds. -/
def oneDevice (file : List UInt8) : World where
  platform := .linux
  readFile _ := .ok file
  termuxUsbFd := none
  listDevices := .ok [{
    vendorId := vendorId
    productId := productId
    opened := .ok {
      vendorId := vendorId
      productId := productId
      activeConfiguration := .ok [⟨0, 0xFF, [⟨0x03, .bulk, .outbound⟩, ⟨0x84, .bulk, .inbound⟩]⟩]
      claimInterface _ := .ok ()
      openEndpoint _ := .ok 64 } }]
  fromFd _ := .error ⟨0⟩
  currentExe := .error ⟨0⟩
  exec _ := ⟨0⟩

/-- A file of one block with one payload byte. -/
def oneByteFile : List UInt8 :=
  fileBytes [.build uf2FlagFamilyIdPresent flashStart rp2040FamilyId [0] (by decide)]

theorem safe_order_oneDevice :
    let args : LoadArgs := ⟨[], true, false, none, none⟩
    let run := (runLoad (oneDevice oneByteFile) [] args ()).exec Request.completed
    run.2.1 = .ok () ∧ SafeRun (oneDevice oneByteFile) args run.1 run.2.1 :=
  ⟨by decide +kernel, safe_order (Session.exec_runs Request.completed _ _)⟩

end PicotoolRs
