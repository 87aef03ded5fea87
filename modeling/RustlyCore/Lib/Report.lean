import Mathlib.Data.List.Basic

/-!
# Reporting with a path stack

A reporter walks a structure with a stack of path segments and a list of issues, and may panic.
`Reports render p m a found` says what such a computation does from the path `p`, whatever was
collected before: it returns `a`, leaves the path as it was and appends its findings, each located
relative to `p`. The rules below compose such statements along the code.
-/

namespace RustlyCore.Report

/-- The path to the value being visited, outermost segment first, and the issues so far. -/
structure State (σ ε : Type) where
  path : List σ
  issues : List ε

/-- `none` is a panic. -/
abbrev Reporter (σ ε : Type) := StateT (State σ ε) Option

variable {σ ε ι α β : Type}

def push (segment : σ) : Reporter σ ε Unit :=
  modify fun st => { st with path := st.path ++ [segment] }

def pop : Reporter σ ε Unit :=
  modify fun st => { st with path := st.path.dropLast }

def path : Reporter σ ε (List σ) := return (← get).path

/-- Append the issue `render path i`, for the current path. -/
def emit (render : List σ → ι → ε) (i : ι) : Reporter σ ε Unit :=
  modify fun st => { st with issues := st.issues ++ [render st.path i] }

/-- Findings, each with the path from the value that was checked to the place it is about. -/
abbrev Findings (σ ι : Type) := List (List σ × ι)

/-- The findings about a part, seen from the whole that holds it under `segment`. -/
def under (segment : σ) (found : Findings σ ι) : Findings σ ι :=
  found.map fun f => (segment :: f.1, f.2)

/-- Findings about the value itself. -/
def here (found : List ι) : Findings σ ι := found.map ([], ·)

/-- The issues that findings become at the path `p`. -/
def rendered (render : List σ → ι → ε) (p : List σ) (found : Findings σ ι) : List ε :=
  found.map fun f => render (p ++ f.1) f.2

@[simp] theorem under_nil (s : σ) : under s ([] : Findings σ ι) = [] := rfl

@[simp] theorem under_eq_nil {s : σ} {found : Findings σ ι} : under s found = [] ↔ found = [] :=
  List.map_eq_nil_iff

@[simp] theorem here_nil : here ([] : List ι) = ([] : Findings σ ι) := rfl

@[simp] theorem here_append (is js : List ι) :
    here (is ++ js) = (here is ++ here js : Findings σ ι) :=
  List.map_append

@[simp] theorem here_eq_nil {is : List ι} : (here is : Findings σ ι) = [] ↔ is = [] :=
  List.map_eq_nil_iff

@[simp] theorem rendered_nil (render : List σ → ι → ε) (p : List σ) :
    rendered render p [] = [] := rfl

@[simp] theorem rendered_eq_nil {render : List σ → ι → ε} {p : List σ} {found : Findings σ ι} :
    rendered render p found = [] ↔ found = [] :=
  List.map_eq_nil_iff

@[simp] theorem rendered_append (render : List σ → ι → ε) (p : List σ) (f g : Findings σ ι) :
    rendered render p (f ++ g) = rendered render p f ++ rendered render p g :=
  List.map_append

theorem rendered_under (render : List σ → ι → ε) (p : List σ) (s : σ) (found : Findings σ ι) :
    rendered render p (under s found) = rendered render (p ++ [s]) found := by
  simp [rendered, under]

def Reports (render : List σ → ι → ε) (p : List σ) (m : Reporter σ ε α) (a : α)
    (found : Findings σ ι) : Prop :=
  ∀ issues, m.run ⟨p, issues⟩ = some (a, ⟨p, issues ++ rendered render p found⟩)

namespace Reports
variable {render : List σ → ι → ε} {p : List σ} {m : Reporter σ ε α} {a : α} {b : β}
  {found found' : Findings σ ι}

theorem pure (a : α) : Reports render p (Pure.pure a : Reporter σ ε α) a [] := by
  intro issues
  simp [StateT.run_pure]

theorem emit (i : ι) : Reports render p (Report.emit render i) () (here [i]) := by
  intro issues
  simp [Report.emit, rendered, here, modify, modifyGet, MonadStateOf.modifyGet, StateT.modifyGet,
    StateT.run]

theorem path : Reports render p (Report.path : Reporter σ ε (List σ)) p [] := by
  intro issues
  simp [Report.path]

theorem bind {f : α → Reporter σ ε β} (hm : Reports render p m a found)
    (hf : Reports render p (f a) b found') : Reports render p (m >>= f) b (found ++ found') := by
  intro issues
  rw [StateT.run_bind, hm, Option.bind_eq_bind, Option.bind_some, hf, rendered_append,
    List.append_assoc]

/-- A first step that finds nothing. -/
theorem bind_silent {f : α → Reporter σ ε β} (hm : Reports render p m a [])
    (hf : Reports render p (f a) b found) : Reports render p (m >>= f) b found :=
  hm.bind hf

/-- A last step that finds nothing. -/
theorem bind_last {f : α → Reporter σ ε β} (hm : Reports render p m a found)
    (hf : Reports render p (f a) b []) : Reports render p (m >>= f) b found := by
  simpa using hm.bind hf

theorem bind_pure {f : α → β} (hm : Reports render p m a found) :
    Reports render p (m >>= fun x => Pure.pure (f x)) (f a) found :=
  hm.bind_last (Reports.pure (f a))

/-- Checking a part between a push and the matching pop. -/
theorem under {s : σ} {f : α → Reporter σ ε β} (hm : Reports render (p ++ [s]) m a found)
    (hf : Reports render p (f a) b found') :
    Reports render p (push s >>= fun _ => m >>= fun x => pop >>= fun _ => f x) b
      (Report.under s found ++ found') := by
  intro issues
  have hpush : (push s : Reporter σ ε Unit).run ⟨p, issues⟩ = some ((), ⟨p ++ [s], issues⟩) := rfl
  have hpop (issues : List ε) :
      (pop : Reporter σ ε Unit).run ⟨p ++ [s], issues⟩ = some ((), ⟨p, issues⟩) := by
    change some ((), State.mk (p ++ [s]).dropLast issues) = _
    rw [List.dropLast_concat]
  simp only [StateT.run_bind, Option.bind_eq_bind]
  rw [hpush, Option.bind_some, hm, Option.bind_some, hpop, Option.bind_some, hf, rendered_append,
    rendered_under, List.append_assoc]

end Reports
end RustlyCore.Report
