import PicotoolRs.Device.Link
import PicotoolRs.Run.Flash

/-!
# PicotoolRs.Run.Open

What a run of `load` can look like from the start.

Up to the open device nothing but the interface reset is on the wire. Whether
the device is found by enumeration or by descriptor, it goes through the same
`from_nusb`, and so through the identity check unless `--any-device` is given.
`runLoad_runs` splits a run at the open device.
-/

namespace PicotoolRs

open Lib Constants

/-! ### Opening -/

/-- The device that is opened, with the platform allowing it: by descriptor if
there is one, which is not -1, else the first of the enumeration with the expected
identity. -/
def Opens (w : World) (usb : UsbDevice) : Option Int → Prop
  | some fd => w.platform ≠ .other ∧ fd ≠ -1 ∧ w.fromFd fd = .ok usb
  | none => w.platform ≠ .android ∧ ∃ infos info, w.listDevices = .ok infos ∧
      infos.find? (fun d => d.vendorId = vendorId ∧ d.productId = productId) = some info ∧
      info.opened = .ok usb

/-- No packet of a command is on the wire. -/
def NoPackets (tr : BusTrace) : Prop := ∀ ev ∈ tr, ¬ ev.1.IsPacket

theorem noPackets_nil : NoPackets [] := by
  simp [NoPackets]

/-- A connection was set up only over a device with the right identity, if that
is checked. -/
theorem connect_ok {usb : UsbDevice} {verifyId : Bool} {d : Device}
    (h : Device.connect usb verifyId = .ok d) :
    verifyId = true → usb.vendorId = vendorId ∧ usb.productId = productId := by
  intro hverify
  by_contra hid
  have hwrong : usb.vendorId ≠ vendorId ∨ usb.productId ≠ productId := by
    by_cases hv : usb.vendorId = vendorId
    · exact .inr fun hp => hid ⟨hv, hp⟩
    · exact .inl hv
  rw [Device.connect, if_pos ⟨hverify, hwrong⟩] at h
  simp at h

theorem ofUsb_ok {α : Type} {x : Except UsbError α} {a : α} (h : ofUsb x = .ok a) : x = .ok a := by
  cases x with
  | ok b => exact congrArg Except.ok (Outcome.ok.inj h)
  | error e => simp [ofUsb] at h

section Opening

variable {σ : Type} {s s' : σ} {tr : BusTrace} {o : Outcome DeviceError Device}

/-- Setting up a connection sends no packet, and the connection is that of
`connect`. -/
theorem fromNusb_runs {usb : UsbDevice} {verifyId : Bool}
    (h : (Device.fromNusb usb verifyId : Session Request Completion σ _ _).Runs s tr o s') :
    NoPackets tr ∧ ∀ d, o = .ok d → Device.connect usb verifyId = .ok d := by
  rcases Session.runs_ofOutcome_bind h with ⟨dev, hdev, hreset⟩ | ⟨e, -, rfl, rfl⟩ | ⟨-, rfl, rfl⟩
  · obtain ⟨o', dev', hrun, ho⟩ := Session.runs_withState_bind_pure
      (show (Session.withState dev Device.resetInterface >>= fun x => pure x.2).Runs s tr o s'
        from hreset)
    obtain ⟨rfl, c, rfl⟩ := Device.resetInterface_runs hrun
    refine ⟨by simp [NoPackets, Request.IsPacket], fun d hd => ?_⟩
    obtain ⟨_, -, hleft⟩ := Outcome.bind_eq_ok.mp (ho.symm.trans hd)
    rw [← Outcome.ok.inj hleft, hdev]
  · exact ⟨noPackets_nil, by simp⟩
  · exact ⟨noPackets_nil, by simp⟩

/-- What is opened in a run of `x` and `fromNusb`, where `x` asks the system for
the device. -/
theorem ask_runs {x : Outcome DeviceError UsbDevice} {verifyId : Bool}
    (h : (Session.ofOutcome x >>= fun usb => Device.fromNusb usb verifyId :
      Session Request Completion σ _ _).Runs s tr o s') :
    NoPackets tr ∧
      ∀ d, o = .ok d → ∃ usb, x = .ok usb ∧ Device.connect usb verifyId = .ok d := by
  rcases Session.runs_ofOutcome_bind h with ⟨usb, rfl, hopen⟩ | ⟨e, -, rfl, rfl⟩ | ⟨-, rfl, rfl⟩
  · obtain ⟨hno, hconnect⟩ := fromNusb_runs hopen
    exact ⟨hno, fun d hd => ⟨usb, rfl, hconnect d hd⟩⟩
  · exact ⟨noPackets_nil, by simp⟩
  · exact ⟨noPackets_nil, by simp⟩

/-- Opening a device sends no packet. The device is the one asked for, and a
connection was set up over it. -/
theorem openDevice_runs {w : World} {fd : Option Int} {verifyId : Bool}
    (h : (Device.openDevice w fd verifyId : Session Request Completion σ _ _).Runs s tr o s') :
    NoPackets tr ∧
      ∀ d, o = .ok d → ∃ usb, Opens w usb fd ∧ Device.connect usb verifyId = .ok d := by
  cases fd with
  | some fd =>
      rw [Device.openDevice, Device.openFd] at h
      split at h
      · obtain ⟨rfl, rfl, -⟩ := Session.runs_throw.mp h
        exact ⟨noPackets_nil, by simp⟩
      · next hplatform =>
        split at h
        · obtain ⟨rfl, rfl, -⟩ := Session.runs_ofOutcome.mp h
          exact ⟨noPackets_nil, by simp⟩
        · next hfd =>
          obtain ⟨hno, hopen⟩ := ask_runs h
          refine ⟨hno, fun d hd => ?_⟩
          obtain ⟨usb, husb, hconnect⟩ := hopen d hd
          exact ⟨usb, ⟨hplatform, hfd, ofUsb_ok husb⟩, hconnect⟩
  | none =>
      rw [Device.openDevice, Device.openEnumerate] at h
      split at h
      · obtain ⟨rfl, rfl, -⟩ := Session.runs_throw.mp h
        exact ⟨noPackets_nil, by simp⟩
      · next hplatform =>
        rcases Session.runs_ofOutcome_bind h with
          ⟨infos, hinfos, hfound⟩ | ⟨e, -, rfl, rfl⟩ | ⟨-, rfl, rfl⟩
        · split at hfound
          · obtain ⟨rfl, rfl, -⟩ := Session.runs_throw.mp hfound
            exact ⟨noPackets_nil, by simp⟩
          · next info hfind =>
            obtain ⟨hno, hopen⟩ := ask_runs hfound
            refine ⟨hno, fun d hd => ?_⟩
            obtain ⟨usb, husb, hconnect⟩ := hopen d hd
            exact ⟨usb, ⟨hplatform, infos, info, ofUsb_ok hinfos, hfind, ofUsb_ok husb⟩, hconnect⟩
        · exact ⟨noPackets_nil, by simp⟩
        · exact ⟨noPackets_nil, by simp⟩

end Opening

/-! ### The command -/

/-- The runs of the command. -/
inductive CommandRun (w : World) (args : LoadArgs) : BusTrace → Outcome RunError Unit → Prop
  /-- It ended without an open device. -/
  | unopened {tr : BusTrace} {o : Outcome RunError Unit} : NoPackets tr → o ≠ .ok () →
      (∀ e, o ≠ .err (.flashing e)) → CommandRun w args tr o
  /-- The file was read, and flashed to the open device. -/
  | opened {t₁ t₂ : BusTrace} {o : Outcome RunError Unit} {bytes : List UInt8} {usb : UsbDevice}
      {d : Device} :
      NoPackets t₁ → w.readFile args.file = .ok bytes → Opens w usb (resolveFd w args.fd) →
      Device.connect usb (!args.anyDevice) = .ok d →
      FlashRun args.file bytes args.verify d t₂ o → CommandRun w args (t₁ ++ t₂) o

theorem reexecViaTermux_fails (w : World) (path : Str) (argv : List Str) :
    ∃ e, reexecViaTermux w path argv = .err e ∧ ∀ e', e ≠ .flashing e' := by
  unfold reexecViaTermux
  split
  · split
    · exact ⟨_, rfl, by simp⟩
    · exact ⟨_, rfl, by simp⟩
  · exact ⟨_, rfl, by simp⟩

/-- A run of the command, taken apart at the open device. -/
theorem runLoad_runs {w : World} {argv : List Str} {args : LoadArgs} {s s' : Unit}
    {tr : BusTrace} {o : Outcome RunError Unit} (h : (runLoad w argv args).Runs s tr o s') :
    CommandRun w args tr o := by
  unfold runLoad at h
  split at h
  · next path _ =>
    obtain ⟨rfl, rfl, -⟩ := Session.runs_ofOutcome.mp h
    obtain ⟨e, he, hno⟩ := reexecViaTermux_fails w path argv
    rw [he]
    exact .unopened noPackets_nil (by simp) fun e' => by simpa using hno e'
  · rcases Session.runs_ofOutcome_bind h with
      ⟨bytes, hbytes, hrun⟩ | ⟨e, he, rfl, rfl⟩ | ⟨-, rfl, rfl⟩
    · have hread : w.readFile args.file = .ok bytes := by
        cases hfile : w.readFile args.file <;> simp_all
      rcases Session.runs_bind.mp hrun with ⟨d, _, t₁, t₂, rfl, h₁, h₂⟩ | ⟨e, rfl, h₁⟩ | ⟨rfl, h₁⟩
      · obtain ⟨o₁, ho₁, hopen⟩ := Session.runs_mapErr.mp h₁
        obtain ⟨hno, hd⟩ := openDevice_runs hopen
        obtain ⟨usb, husb, hconnect⟩ := hd d (Outcome.mapErr_eq_ok.mp ho₁.symm)
        obtain ⟨o', d', hflash, ho⟩ := Session.runs_withState_bind_pure
          (show (Session.withState d (flashFile args.file bytes args.verify) >>=
            fun _ => pure ()).Runs _ t₂ o s' from h₂)
        obtain rfl : o = o' := by
          cases o' <;> exact ho
        exact .opened hno hread husb hconnect (flashFile_runs hflash)
      · obtain ⟨o₁, ho₁, hopen⟩ := Session.runs_mapErr.mp h₁
        obtain ⟨e', -, rfl⟩ := Outcome.mapErr_eq_err.mp ho₁.symm
        exact .unopened (openDevice_runs hopen).1 (by simp) (by simp)
      · obtain ⟨o₁, -, hopen⟩ := Session.runs_mapErr.mp h₁
        exact .unopened (openDevice_runs hopen).1 (by simp) (by simp)
    · refine .unopened noPackets_nil (by simp) fun e' => ?_
      cases hfile : w.readFile args.file with
      | ok bytes => simp [hfile] at he
      | error e₁ =>
          simp only [hfile, Outcome.err.injEq] at he
          simp [← he]
    · exact .unopened noPackets_nil (by simp) (by simp)

end PicotoolRs
