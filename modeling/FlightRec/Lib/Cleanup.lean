/-
# `FlightRec.Lib.Cleanup` — functions that are left through a cleanup label

A C function with a result variable, which starts as success, and a label at its end.  The
ways out are a plain `return`, an assignment to the variable and a jump to the label, and the
end of the body.  If an inner block declares a variable of the same name, an assignment in it
does not reach the one that is returned (`Leave.returned`).

A run also says which of the things the function asked for were refused.  It reports them if
the function returns failure.
-/
import Mathlib.Data.List.Basic

namespace Cleanup

inductive Status where
  | success
  | failure
  deriving DecidableEq, Repr

/-- How a function is left. -/
inductive Leave where
  /-- `return` -/
  | ret (status : Status)
  /-- A jump to the label, with the variable of the function assigned. -/
  | clean (status : Status)
  /-- A jump to the label, with the variable of an inner block assigned. -/
  | shadowed (status : Status)
  /-- The end of the body. -/
  | falls
  /-- The process is killed. -/
  | crash
  /-- A loop that is not left. -/
  | loops
  deriving DecidableEq, Repr

/-- What the caller gets. -/
@[simp] def Leave.returned : Leave → Option Status
  | .ret status => some status
  | .clean status => some status
  | .shadowed _ => some .success
  | .falls => some .success
  | .crash => none
  | .loops => none

/-- A run: the exit, what was refused on the way, and what the run leaves behind. -/
structure Exit (κ ε : Type*) where
  leave : Leave
  refused : List κ := []
  entry : ε
  deriving DecidableEq, Repr

namespace Exit

variable {κ ε : Type*}

/-- What is refused is reported. -/
def Reports (e : Exit κ ε) : Prop := e.refused ≠ [] → e.leave.returned = some .failure

/-- The run fails. -/
def Fails (e : Exit κ ε) : Prop := e.leave.returned = some .failure

/-- A run in which something was refused before, and the function went on. -/
def passing (e : Exit κ ε) (refused : List κ) : Exit κ ε :=
  { e with refused := refused ++ e.refused }

theorem Fails.reports {e : Exit κ ε} (h : e.Fails) : e.Reports := fun _ => h

theorem reports_of_nil {e : Exit κ ε} (h : e.refused = []) : e.Reports :=
  fun hne => absurd h hne

theorem reports_iff_fails {e : Exit κ ε} (h : e.refused ≠ []) : e.Reports ↔ e.Fails :=
  ⟨fun hreports => hreports h, Fails.reports⟩

@[simp] theorem reports_mk_nil {leave : Leave} {entry : ε} :
    (mk leave ([] : List κ) entry).Reports := reports_of_nil rfl

@[simp] theorem reports_mk_cons {leave : Leave} {refused : κ} {rest : List κ} {entry : ε} :
    (mk leave (refused :: rest) entry).Reports ↔ leave.returned = some .failure :=
  reports_iff_fails (List.cons_ne_nil refused rest)

@[simp] theorem fails_mk {leave : Leave} {refused : List κ} {entry : ε} :
    (mk leave refused entry).Fails ↔ leave.returned = some .failure := Iff.rfl

theorem passing_nil (e : Exit κ ε) : e.passing [] = e := rfl

/-- What was passed over is reported only if the run fails later. -/
theorem passing_reports {e : Exit κ ε} {refused : List κ} (h : refused ≠ []) :
    (e.passing refused).Reports ↔ e.Fails :=
  reports_iff_fails (List.append_ne_nil_of_left_ne_nil h _)

end Exit

end Cleanup
