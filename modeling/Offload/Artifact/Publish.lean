import Offload.Artifact.Render
import Offload.FileTree

/-! Writing the generated files. All texts are first written beside their places
and moved there only when every write has succeeded, so a failed write leaves
earlier files as they were. -/

namespace Offload

namespace Volume

variable {σ : Type} (volume : Volume σ)

def removeAll (state : σ) (paths : List String) : σ := paths.foldl volume.remove state

/-- Writes texts to paths, in order. The first failure removes what was written
before it and what it may have left behind. -/
def stage (written : List String) : List (String × String) → σ → σ × Except Fault Unit
  | [], state => (state, .ok ())
  | (path, text) :: rest, state =>
    match volume.store state path text with
    | (state, none) => stage (written ++ [path]) rest state
    | (state, some cause) =>
      (volume.removeAll state (written ++ [path]), .error (.cannotWrite path cause))

/-- A staged file: where it is, where it belongs, and its text. -/
structure Delivery where
  source : String
  target : String
  text : String
  deriving DecidableEq, Repr, Inhabited

/-- Moves staged files to their places, in order. The first failure removes the
staged files that are left. -/
def deliver : List Delivery → σ → σ × Traced Unit
  | [], state => (state, pure ())
  | file :: rest, state =>
    match volume.rename state file.source file.target with
    | (state, none) =>
      let (state, others) := deliver rest state
      (state, ⟨.wrote file.target file.text.utf8ByteSize :: others.events, others.result⟩)
    | (state, some cause) =>
      (volume.removeAll state ((file :: rest).map (·.source)),
        .fail (.cannotCreate file.target cause))

end Volume

namespace OutputNames

/-- The files of a run, with their staging paths. -/
def deliveries (names : OutputNames) (rendered : Rendered) : List Volume.Delivery :=
  (names.paths.zip rendered.texts).map fun (path, text) => ⟨stagingPath path, path, text⟩

/-- Writes the three files. -/
def publish {σ : Type} (names : OutputNames) (volume : Volume σ) (rendered : Rendered)
    (state : σ) : σ × Traced Unit :=
  let files := names.deliveries rendered
  match volume.stage [] (files.map fun file => (file.source, file.text)) state with
  | (state, .ok ()) => volume.deliver files state
  | (state, .error fault) => (state, .fail fault)

end OutputNames

/-- A whole run: names the files, generates and prints them, and writes them. -/
def Job.run {σ : Type} (job : Job) (volume : Volume σ) (tree : Node) (input : String)
    (output : Option String) (state : σ) : σ × Traced OutputNames :=
  match OutputNames.derive input output with
  | .error fault => (state, .fail fault)
  | .ok names =>
    match job.render names tree with
    | ⟨events, .error fault⟩ => (state, ⟨events, .error fault⟩)
    | ⟨events, .ok rendered⟩ =>
      let (state, writing) := names.publish volume rendered state
      (state, ⟨events ++ writing.events, writing.result.map fun () => names⟩)

end Offload
