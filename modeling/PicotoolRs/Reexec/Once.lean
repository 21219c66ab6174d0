import PicotoolRs.Reexec.Strip
import PicotoolRs.Run.Open

/-!
# PicotoolRs.Reexec.Once

The tool re-executes itself at most once.

`run_load` does not look at the variable that marks the inner run; it
re-executes whenever there is a device. What ends this is the list of arguments:
the inner run gets one without the option (`stripDeviceArg_once`), and a command
without a device never gets to `reexec_via_termux` (`runLoad_stays`).
-/

namespace PicotoolRs

open Lib

/-- The errors of `reexec_via_termux`. -/
def RunError.OfReexec : RunError → Prop
  | .reexecUnsupported | .locatingExe _ | .executingTermuxUsb _ => True
  | .readingFile _ _ | .openingDevice _ | .parsingFile _ _ | .flashing _ => False

/-- The command never gets to `reexec_via_termux`: it makes no difference to it
where the executable is and what `exec` answers, and it ends with none of the
errors. -/
structure Stays (w : World) (argv : List Str) (a : LoadArgs) : Prop where
  blind : ∀ exe exec, runLoad { w with currentExe := exe, exec := exec } argv a = runLoad w argv a
  errors : ∀ s tr e s', (runLoad w argv a).Runs s tr (.err e) s' → ¬ e.OfReexec

/-- A run on the open device ends with no error of the re-execution. -/
theorem flashRun_not_ofReexec {path : Str} {bytes : List UInt8} {verify : Bool} {d : Device}
    {tr : BusTrace} {e : RunError} (h : FlashRun path bytes verify d tr (.err e)) :
    ¬ e.OfReexec := by
  generalize ho : (Outcome.err e : Outcome RunError Unit) = o at h
  cases h with
  | panicked => simp at ho
  | rejected =>
      obtain rfl := Outcome.err.inj ho
      exact not_false
  | loaded =>
      obtain ⟨e', -, rfl⟩ := Outcome.mapErr_eq_err.mp ho.symm
      exact not_false

/-- A command without a device stays. -/
theorem runLoad_stays {a : LoadArgs} (h : a.device = none) (w : World) (argv : List Str) :
    Stays w argv a where
  blind := by
    intro exe exec
    simp only [runLoad, h]
    rfl
  errors := by
    intro s tr e s' hrun
    simp only [runLoad, h] at hrun
    rcases Session.runs_ofOutcome_bind hrun with ⟨bytes, -, hrun⟩ | ⟨e', he, -, ho⟩ | ⟨-, -, ho⟩
    · rcases Session.runs_bind.mp hrun with ⟨d, _, t₁, t₂, -, -, h₂⟩ | ⟨e', ho, h₁⟩ | ⟨ho, -⟩
      · obtain ⟨o', d', hflash, ho⟩ := Session.runs_withState_bind_pure
          (show (Session.withState d (flashFile a.file bytes a.verify) >>=
            fun _ => pure ()).Runs _ t₂ (.err e) s' from h₂)
        obtain rfl : o' = .err e := by
          cases o' <;> exact ho.symm
        exact flashRun_not_ofReexec (flashFile_runs hflash)
      · obtain ⟨o₁, ho₁, -⟩ := Session.runs_mapErr.mp h₁
        obtain ⟨e'', -, rfl⟩ := Outcome.mapErr_eq_err.mp ho₁.symm
        rw [Outcome.err.inj ho]
        exact not_false
      · simp at ho
    · cases hfile : w.readFile a.file with
      | ok bytes => simp [hfile] at he
      | error e₁ =>
          simp only [hfile, Outcome.err.injEq] at he
          rw [Outcome.err.inj ho, ← he]
          exact not_false
    · simp at ho

/-- Run with `args`, the tool hands over to a run with `inner`. -/
def Reexecutes (args inner : List Str) : Prop :=
  ∃ a path, Cli.parse args = some a ∧ a.device = some path ∧ inner = stripDeviceArg args

/-- What the outer run passes on, and what the inner run makes of it. -/
structure HandsOver (args inner : List Str) : Prop where
  /-- Just the positions of the option and of its value are left out. -/
  kept : inner = keptArgs args
  sublist : inner.Sublist args
  clean : ∀ arg ∈ inner, ¬ IsDeviceOption arg
  idempotent : stripDeviceArg inner = inner
  device : ∀ a, Cli.parse inner = some a → a.device = none
  stays : ∀ a, Cli.parse inner = some a → ∀ w argv, Stays w argv a
  once : ∀ inner', ¬ Reexecutes inner inner'

/-- Whatever the arguments, the tool re-executes itself at most once. -/
theorem stripDeviceArg_once (args : List Str) : HandsOver args (stripDeviceArg args) := by
  have hclean : ∀ arg ∈ stripDeviceArg args, ¬ IsDeviceOption arg := fun arg harg =>
    not_device_of_mem_strip harg
  have hdevice : ∀ a, Cli.parse (stripDeviceArg args) = some a → a.device = none := by
    intro a ha
    obtain ⟨rest, hrest, hreads⟩ := Cli.parse_eq_some_iff.mp ha
    rw [hrest, List.forall_mem_cons] at hclean
    exact hreads.device_eq hclean.2
  exact {
    kept := stripDeviceArg_eq_kept args
    sublist := stripDeviceArg_sublist args
    clean := hclean
    idempotent := stripDeviceArg_of_clean hclean
    device := hdevice
    stays := fun a ha w argv => runLoad_stays (hdevice a ha) w argv
    once := by
      rintro inner' ⟨a, path, ha, hpath, -⟩
      rw [hdevice a ha] at hpath
      simp at hpath }

end PicotoolRs
