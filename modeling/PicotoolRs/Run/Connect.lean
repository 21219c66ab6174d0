import PicotoolRs.Run.Open

/-!
# PicotoolRs.Run.Connect

When a device is opened.

Opening is asking the system for a device and its descriptors (`found`), and then
one transfer, the reset of the interface (`openDevice_eq`). `connect_iff` says
which descriptors are good enough: the identity, if it is checked, the first
interface of the vendor class, and in it the last bulk endpoint of each direction.
-/

namespace PicotoolRs

open Lib Constants

/-! ### Descriptors -/

/-- The last bulk endpoint of a direction. -/
def lastBulk (dir : Direction) (endpoints : List Endpoint) : Option UInt8 :=
  (endpoints.filter fun ep => ep.transferType = .bulk ∧ ep.direction = dir).getLast?.map
    Endpoint.address

/-- The loop finds the last bulk endpoints. By induction from the end of the
list, where the loop decides. -/
theorem bulkEndpoints_eq (endpoints : List Endpoint) :
    bulkEndpoints endpoints = (lastBulk .outbound endpoints, lastBulk .inbound endpoints) := by
  induction endpoints using List.reverseRecOn with
  | nil => rfl
  | append_singleton endpoints ep ih =>
      rw [bulkEndpoints] at ih ⊢
      rw [List.foldl_append, ih]
      by_cases hbulk : ep.transferType = .bulk
      · cases hdir : ep.direction <;> simp [lastBulk, List.filter_append, hbulk, hdir]
      · simp [lastBulk, List.filter_append, hbulk]

theorem ofUsb_eq_ok {α : Type} {x : Except UsbError α} {a : α} :
    ofUsb x = .ok a ↔ x = .ok a := by
  cases x <;> simp [ofUsb]

theorem ofUsb_ne_panic {α : Type} (x : Except UsbError α) : ofUsb x ≠ .panic := by
  cases x <;> simp [ofUsb]

theorem findPicoboot_eq_ok {usb : UsbDevice} {ifNum outAddr inAddr : UInt8} :
    findPicoboot usb = .ok (ifNum, outAddr, inAddr) ↔
      ∃ interfaces interface, usb.activeConfiguration = .ok interfaces ∧
        interfaces.find? (·.interfaceClass = picobootInterfaceClass) = some interface ∧
        lastBulk .outbound interface.endpoints = some outAddr ∧
        lastBulk .inbound interface.endpoints = some inAddr ∧
        ifNum = interface.interfaceNumber := by
  unfold findPicoboot
  constructor
  · intro h
    split at h
    · simp at h
    · next interfaces hconfig =>
      split at h
      · simp at h
      · next interface hfind =>
        split at h
        · next outAddr' inAddr' hbulk =>
          simp only [bulkEndpoints_eq, Prod.mk.injEq, Outcome.ok.injEq] at hbulk h
          obtain ⟨rfl, rfl, rfl⟩ := h
          exact ⟨interfaces, interface, hconfig, hfind, hbulk.1, hbulk.2, rfl⟩
        · simp at h
  · intro h
    obtain ⟨interfaces, interface, hconfig, hfind, hout, hin, rfl⟩ := h
    simp [hconfig, hfind, bulkEndpoints_eq, hout, hin]

theorem findPicoboot_ne_panic (usb : UsbDevice) : findPicoboot usb ≠ .panic := by
  unfold findPicoboot
  split
  · simp
  · split
    · simp
    · split <;> simp

/-- Over this device a connection can be set up: it is the right one, if that is
checked, its first interface of the vendor class has a bulk endpoint in each
direction, and the system lets the host use them. -/
def Connects (usb : UsbDevice) (verifyId : Bool) (d : Device) : Prop :=
  (verifyId = true → usb.vendorId = vendorId ∧ usb.productId = productId) ∧
    ∃ interfaces interface outAddr inAddr, usb.activeConfiguration = .ok interfaces ∧
      interfaces.find? (·.interfaceClass = picobootInterfaceClass) = some interface ∧
      lastBulk .outbound interface.endpoints = some outAddr ∧
      lastBulk .inbound interface.endpoints = some inAddr ∧
      usb.claimInterface interface.interfaceNumber = .ok () ∧
      (∃ n, usb.openEndpoint outAddr = .ok n) ∧
      ∃ n, usb.openEndpoint inAddr = .ok n ∧ d = ⟨interface.interfaceNumber, n, 0⟩

theorem connect_iff {usb : UsbDevice} {verifyId : Bool} {d : Device} :
    Device.connect usb verifyId = .ok d ↔ Connects usb verifyId d := by
  unfold Device.connect Connects
  split
  · next hwrong =>
    obtain ⟨hverify, hid⟩ := hwrong
    refine iff_of_false (by simp) fun h => ?_
    obtain ⟨hv, hp⟩ := h.1 hverify
    exact hid.elim (fun h => h hv) fun h => h hp
  · next hright =>
    have hid : verifyId = true → usb.vendorId = vendorId ∧ usb.productId = productId := by
      intro hverify
      by_contra hno
      exact hright ⟨hverify, by tauto⟩
    simp only [Outcome.bind_eq_ok, Prod.exists, findPicoboot_eq_ok, ofUsb_eq_ok,
      Outcome.pure_eq_ok, Outcome.ok.injEq]
    constructor
    · intro h
      obtain ⟨ifNum, outAddr, inAddr, ⟨interfaces, interface, hconfig, hfind, hout, hin, rfl⟩, _,
        hclaim, n, hopenOut, m, hopenIn, rfl⟩ := h
      exact ⟨fun h => hid h, interfaces, interface, outAddr, inAddr, hconfig, hfind, hout, hin,
        hclaim, ⟨n, hopenOut⟩, m, hopenIn, rfl⟩
    · intro h
      obtain ⟨-, interfaces, interface, outAddr, inAddr, hconfig, hfind, hout, hin, hclaim,
        ⟨n, hopenOut⟩, m, hopenIn, rfl⟩ := h
      exact ⟨_, outAddr, inAddr, ⟨interfaces, interface, hconfig, hfind, hout, hin, rfl⟩, _,
        hclaim, n, hopenOut, m, hopenIn, rfl⟩

theorem connect_ne_panic (usb : UsbDevice) (verifyId : Bool) :
    Device.connect usb verifyId ≠ .panic := by
  unfold Device.connect
  split
  · simp
  · simp [Outcome.bind_eq_panic, findPicoboot_ne_panic, ofUsb_ne_panic]

/-! ### Opening -/

/-- The connection that is set up, before its interface is reset. -/
def Device.found (w : World) (verifyId : Bool) : Option Int → Outcome DeviceError Device
  | some fd =>
      if w.platform = .other then .err .fdUnsupported
      else if fd = -1 then .panic
      else do
        let device ← ofUsb (w.fromFd fd)
        connect device verifyId
  | none =>
      if w.platform = .android then .err .enumerateUnsupported
      else do
        let infos ← ofUsb w.listDevices
        match infos.find? fun d => d.vendorId = vendorId ∧ d.productId = productId with
        | none => .err (.notFound vendorId productId)
        | some info => do
            let device ← ofUsb info.opened
            connect device verifyId

/-- The reset of a connection that was found. -/
def resetFound {σ : Type} (d : Device) : Session Request Completion σ DeviceError Device :=
  Session.checked Request.failure (.reset d) fun _ => d

section Opening

variable {σ : Type}

theorem fromNusb_eq (usb : UsbDevice) (verifyId : Bool) :
    (Device.fromNusb usb verifyId : Session Request Completion σ _ _) =
      Session.ofOutcome (Device.connect usb verifyId) >>= resetFound := by
  have hreset : ∀ d : Device, (Session.withState d Device.resetInterface >>= fun x =>
      pure x.2 : Session Request Completion σ DeviceError Device) = resetFound d := by
    intro d
    rw [Device.resetInterface_eq]
    funext s
    refine congrArg (Prog.call (Request.reset d)) (funext fun c => ?_)
    cases hc : (Request.reset d).failure c with
    | some e =>
        simp only [Prog.bind, hc]
        rfl
    | none =>
        simp only [Prog.bind, hc]
        rfl
  exact bind_congr hreset

/-- Opening is finding, then the reset. -/
theorem openDevice_eq (w : World) (fd : Option Int) (verifyId : Bool) :
    (Device.openDevice w fd verifyId : Session Request Completion σ _ _) =
      Session.ofOutcome (Device.found w verifyId fd) >>= resetFound := by
  have hask : ∀ {α : Type} (x : Outcome DeviceError α) (f : α → Outcome DeviceError Device),
      (Session.ofOutcome x >>= fun a => Session.ofOutcome (f a) >>= resetFound :
        Session Request Completion σ DeviceError Device) =
          Session.ofOutcome (x >>= f) >>= resetFound := by
    intro α x f
    cases x <;> rfl
  cases fd with
  | some fd =>
      simp only [Device.openDevice, Device.openFd, Device.found, fromNusb_eq, hask]
      split
      · rfl
      · split <;> rfl
  | none =>
      simp only [Device.openDevice, Device.openEnumerate, Device.found]
      split
      · rfl
      · rw [← hask]
        refine bind_congr fun infos => ?_
        cases infos.find? fun d => d.vendorId = vendorId ∧ d.productId = productId with
        | none => rfl
        | some info => simp only [fromNusb_eq, hask]

/-- What can come of opening a device where `x` was found. -/
inductive OpenRun (x : Outcome DeviceError Device) : BusTrace → Outcome DeviceError Device → Prop
  /-- Nothing was found. -/
  | failed : (∀ d, x ≠ .ok d) → OpenRun x [] x
  /-- The interface was reset. -/
  | opened {d : Device} {c : Completion} : x = .ok d → Succeeded (.reset d, c) →
      OpenRun x [(.reset d, c)] (.ok d)
  /-- The reset failed. -/
  | refused {d : Device} {c : Completion} {e : DeviceError} : x = .ok d →
      (Request.reset d).failure c = some e → OpenRun x [(.reset d, c)] (.err e)

theorem openRun_ok_iff {x : Outcome DeviceError Device} {tr : BusTrace} {d : Device} :
    OpenRun x tr (.ok d) ↔
      x = .ok d ∧ ∃ c, tr = [(.reset d, c)] ∧ Succeeded (.reset d, c) := by
  constructor
  · intro h
    generalize ho : Outcome.ok d = o at h
    cases h with
    | failed hno => exact absurd ho.symm (hno d)
    | opened hfound hc =>
        obtain rfl := Outcome.ok.inj ho
        exact ⟨hfound, _, rfl, hc⟩
    | refused _ _ => simp at ho
  · intro h
    obtain ⟨hfound, c, rfl, hc⟩ := h
    exact .opened hfound hc

theorem openDevice_runs_iff {w : World} {fd : Option Int} {verifyId : Bool} {s s' : σ}
    {tr : BusTrace} {o : Outcome DeviceError Device} :
    (Device.openDevice w fd verifyId : Session Request Completion σ _ _).Runs s tr o s' ↔
      s' = s ∧ OpenRun (Device.found w verifyId fd) tr o := by
  rw [openDevice_eq]
  constructor
  · intro h
    rcases Session.runs_bind.mp h with ⟨d, s₁, t₁, t₂, rfl, h₁, h₂⟩ | ⟨e, rfl, h₁⟩ | ⟨rfl, h₁⟩
    · obtain ⟨rfl, hfound, rfl⟩ := Session.runs_ofOutcome.mp h₁
      obtain ⟨rfl, c, rfl, rfl⟩ := Session.runs_checked.mp h₂
      refine ⟨rfl, ?_⟩
      cases hc : (Request.reset d).failure c with
      | some e => exact .refused hfound.symm hc
      | none => exact .opened hfound.symm hc
    · obtain ⟨rfl, hfound, rfl⟩ := Session.runs_ofOutcome.mp h₁
      rw [hfound]
      exact ⟨rfl, .failed (by simp [← hfound])⟩
    · obtain ⟨rfl, hfound, rfl⟩ := Session.runs_ofOutcome.mp h₁
      rw [hfound]
      exact ⟨rfl, .failed (by simp [← hfound])⟩
  · intro h
    obtain ⟨rfl, h⟩ := h
    cases h with
    | failed hno =>
        cases hfound : Device.found w verifyId fd with
        | ok d => exact absurd hfound (hno d)
        | err e => exact Prog.runs_done.mpr ⟨rfl, rfl⟩
        | panic => exact Prog.runs_done.mpr ⟨rfl, rfl⟩
    | opened hfound hc =>
        rw [hfound]
        exact Session.runs_checked.mpr ⟨rfl, _, rfl, by rw [show _ = none from hc]⟩
    | refused hfound hc =>
        rw [hfound]
        exact Session.runs_checked.mpr ⟨rfl, _, rfl, by rw [hc]⟩

end Opening

/-- A device is found where one is opened that can be connected to. -/
theorem found_eq_ok {w : World} {fd : Option Int} {verifyId : Bool} {d : Device} :
    Device.found w verifyId fd = .ok d ↔ ∃ usb, Opens w usb fd ∧ Connects usb verifyId d := by
  cases fd with
  | some fd =>
      simp only [Device.found, Opens]
      split
      · next hplatform => simp [hplatform]
      · next hplatform =>
        split
        · next hfd => simp [hfd]
        · next hfd =>
          simp only [Outcome.bind_eq_ok, ofUsb_eq_ok, connect_iff]
          exact exists_congr fun usb => by simp [hplatform, hfd]
  | none =>
      simp only [Device.found, Opens]
      split
      · next hplatform => simp [hplatform]
      · next hplatform =>
        simp only [Outcome.bind_eq_ok, ofUsb_eq_ok]
        constructor
        · intro h
          obtain ⟨infos, hinfos, h⟩ := h
          split at h
          · simp at h
          · next info hfind =>
            obtain ⟨usb, husb, h⟩ := Outcome.bind_eq_ok.mp h
            exact ⟨usb, ⟨hplatform, infos, info, hinfos, hfind, ofUsb_eq_ok.mp husb⟩,
              connect_iff.mp h⟩
        · intro h
          obtain ⟨usb, ⟨-, infos, info, hinfos, hfind, husb⟩, h⟩ := h
          refine ⟨infos, hinfos, ?_⟩
          rw [hfind]
          exact Outcome.bind_eq_ok.mpr ⟨usb, ofUsb_eq_ok.mpr husb, connect_iff.mpr h⟩

/-- Looking for a device panics over the descriptor -1, and only there. -/
theorem found_eq_panic {w : World} {fd : Option Int} {verifyId : Bool} :
    Device.found w verifyId fd = .panic ↔ w.platform ≠ .other ∧ fd = some (-1) := by
  cases fd with
  | some fd =>
      simp only [Device.found, Option.some.injEq]
      split
      · next hplatform => simp [hplatform]
      · next hplatform =>
        split
        · next hfd => simp [hplatform, hfd]
        · next hfd => simp [Outcome.bind_eq_panic, ofUsb_ne_panic, connect_ne_panic, hfd]
  | none =>
      refine iff_of_false (fun h => ?_) (by simp)
      simp only [Device.found] at h
      split at h
      · simp at h
      · obtain h | ⟨infos, -, h⟩ := Outcome.bind_eq_panic.mp h
        · exact ofUsb_ne_panic _ h
        · split at h
          · simp at h
          · simp [Outcome.bind_eq_panic, ofUsb_ne_panic, connect_ne_panic] at h

/-- A device is opened exactly if the system has one that can be connected to and
the reset of its interface succeeds, which is the only transfer. -/
theorem opens_iff {σ : Type} {w : World} {fd : Option Int} {verifyId : Bool} {s s' : σ}
    {tr : BusTrace} {d : Device} :
    (Device.openDevice w fd verifyId : Session Request Completion σ _ _).Runs s tr (.ok d) s' ↔
      s' = s ∧ (∃ usb, Opens w usb fd ∧ Connects usb verifyId d) ∧
        ∃ c, tr = [(.reset d, c)] ∧ Succeeded (.reset d, c) := by
  rw [openDevice_runs_iff, openRun_ok_iff, found_eq_ok]

end PicotoolRs
