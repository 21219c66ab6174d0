import PicotoolRs.Lib.Interaction

/-!
# PicotoolRs.Lib.Cut

Runs that are **cut off**: the program is gone after some of its events, because
it was killed or the power failed.

What has happened by then is an initial part of the trace of a run. Of a fixed list
of requests some were issued, all of which passed except perhaps the last
(`Attempt.cut`).
-/

namespace Lib

variable {Req Resp α σ ε : Type}

/-- The session was cut off after the events of `tr`. -/
def Session.Cut (m : Session Req Resp σ ε α) (s : σ) (tr : Trace Req Resp) : Prop :=
  ∃ tr' o s', m.Runs s (tr ++ tr') o s'

/-- Every run may be cut off after its last event. -/
theorem Session.Runs.cut {m : Session Req Resp σ ε α} {s s' : σ} {tr : Trace Req Resp}
    {o : Outcome ε α} (h : m.Runs s tr o s') : m.Cut s tr :=
  ⟨[], o, s', by rwa [List.append_nil]⟩

/-- Requests of a list that were issued before an attempt was cut off. -/
inductive Issued (fail : Req → Resp → Option ε) : List Req → Trace Req Resp → Prop
  | nil {rs : List Req} : Issued fail rs []
  /-- The request passed. -/
  | next {r : Req} {rs : List Req} {c : Resp} {tr : Trace Req Resp} :
      fail r c = none → Issued fail rs tr → Issued fail (r :: rs) ((r, c) :: tr)
  /-- Whatever came of it, this was the last request. -/
  | last {r : Req} {rs : List Req} {c : Resp} : Issued fail (r :: rs) [(r, c)]

/-- What was issued is an initial part of the list. -/
theorem Issued.map_fst_prefix {fail : Req → Resp → Option ε} {rs : List Req}
    {tr : Trace Req Resp} (h : Issued fail rs tr) : tr.map Prod.fst <+: rs := by
  induction h with
  | nil => exact List.nil_prefix
  | next _ _ ih => exact (List.prefix_cons_inj _).mpr ih
  | last => exact ⟨_, rfl⟩

theorem Attempt.cut {fail : Req → Resp → Option ε} {stuck : Req → Prop} {rs : List Req}
    {t₁ t₂ : Trace Req Resp} {o : Outcome ε Unit} (h : Attempt fail stuck rs (t₁ ++ t₂) o) :
    Issued fail rs t₁ := by
  generalize htr : t₁ ++ t₂ = tr at h
  induction h generalizing t₁ with
  | done =>
      obtain ⟨rfl, -⟩ := List.append_eq_nil_iff.mp htr
      exact .nil
  | next hf _ ih =>
      cases t₁ with
      | nil => exact .nil
      | cons ev t₁ =>
          obtain ⟨rfl, rfl⟩ := List.cons.inj htr
          exact .next hf (ih rfl)
  | stop _ =>
      cases t₁ with
      | nil => exact .nil
      | cons ev t₁ =>
          obtain ⟨rfl, hnil⟩ := List.cons.inj htr
          obtain ⟨rfl, -⟩ := List.append_eq_nil_iff.mp hnil
          exact .last
  | halt _ =>
      obtain ⟨rfl, -⟩ := List.append_eq_nil_iff.mp htr
      exact .nil

end Lib
