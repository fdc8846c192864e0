import Deriver.Build.Run

/-!
# Building what changed

After a batch of changes only the sources named in it are expanded again, and the
generated files of those that are gone are removed.
-/

namespace Deriver

/-- What came of a batch of changes. -/
structure Rebuilt where
  /-- The run, if a changed source was still there. -/
  report : Option Report
  /-- The generated files that were removed with their sources. -/
  removed : List Text
  changed : List Text

def Rebuilt.failed (r : Rebuilt) : Bool := r.report.any (·.failed)

namespace BuildOptions

def matchesSource (o : BuildOptions) (path : Text) : Bool := isSource o.suffix path

/-- What becomes of changed sources before any is expanded. -/
structure Swept where
  /-- The sources that still exist. -/
  existing : List Text
  /-- The generated files that were removed. -/
  removed : List Text
  files : FileTree

/-- Sorts changed sources into those that exist and those that are gone, and
removes the generated files of the latter as it meets them. -/
def sweep (o : BuildOptions) : List Text → FileTree → Swept
  | [], t => ⟨[], [], t⟩
  | path :: rest, t =>
      if t.has path then
        let s := o.sweep rest t
        { s with existing := path :: s.existing }
      else
        match t.remove (o.outputPath path) with
        | .error _ => o.sweep rest t
        | .ok t =>
            let s := o.sweep rest t
            { s with removed := o.outputPath path :: s.removed }

/-- Expands the changed sources that exist and removes the generated files of
those that do not. -/
def rebuild (o : BuildOptions) (m : Moment) (changed : List Text) (s : BuildState) :
    Except Text Rebuilt × BuildState :=
  let swept := o.sweep (changed.filter o.matchesSource) s.files
  let s := { s with files := swept.files }
  if swept.existing.isEmpty then (.ok ⟨none, swept.removed, changed⟩, s)
  else
    match o.run m swept.existing s with
    | (.ok report, s) => (.ok ⟨some report, swept.removed, changed⟩, s)
    | (.error e, s) => (.error e, s)

def buildAll (o : BuildOptions) (m : Moment) (root : Text) (ignored : List Text)
    (s : BuildState) : Except Text Rebuilt × BuildState :=
  match s.files.collect [root] o.suffix ignored with
  | .ok paths => o.rebuild m paths s
  | .error e => (.error e, s)

end BuildOptions

end Deriver
