import Offload.Proofs.Artifact.Disk

namespace Offload

namespace Sample

/-- The entries of one directory by their names. -/
structure Folder where
  entry : String → Option Entry

def Folder.set (folder : Folder) (path : String) (entry : Option Entry) : Folder :=
  ⟨fun other => if other = path then entry else folder.entry other⟩

@[grind =]
theorem Folder.entry_set (folder : Folder) (path other : String) (entry : Option Entry) :
    (folder.set path entry).entry other = if other = path then entry else folder.entry other :=
  rfl

/-- The folder after a call, if the call fits what is there. -/
def Folder.after (folder : Folder) : Call → Except FileError Folder
  | .create path =>
    if folder.entry path = some .dir then .error .isDirectory
    else .ok (folder.set path (some (.file "")))
  | .write path text =>
    match folder.entry path with
    | some (.file old) => .ok (folder.set path (some (.file (old ++ text))))
    | _ => .error .notFound
  | .flush _ => .ok folder
  | .rename source target =>
    match folder.entry source with
    | some (.file text) =>
      if folder.entry target = some .dir then .error .isDirectory
      else .ok ((folder.set source none).set target (some (.file text)))
    | _ => .error .notFound
  | .remove path =>
    match folder.entry path with
    | some (.file _) => .ok (folder.set path none)
    | _ => .error .notFound

/-- A folder on a disk that breaks down at some calls and then leaves a torn file behind. -/
def folderDisk (breaks : Call → Bool) : Disk Folder where
  perform call folder :=
    match call.written?, breaks call, folder.after call with
    | some path, true, _ => (folder.set path (some (.file "torn")), some .busy)
    | _, _, .ok next => (next, none)
    | _, _, .error cause => (folder, some cause)

def folderView : View Folder String where
  place path := path
  look := Folder.entry

@[grind =]
theorem folderView_place (path : String) : folderView.place path = path := rfl

@[grind =]
theorem folderView_look (folder : Folder) (path : String) :
    folderView.look folder path = folder.entry path := rfl

theorem folderDisk_cases {breaks : Call → Bool} {call : Call} {folder next : Folder}
    {error : Option FileError}
    (performed : (folderDisk breaks).perform call folder = (next, error)) :
    (folder.after call = .ok next ∧ error = none) ∨
      (∃ cause, folder.after call = .error cause ∧ next = folder ∧ error ≠ none) ∨
      ∃ path, call.written? = some path ∧ next = folder.set path (some (.file "torn")) ∧
        error ≠ none := by
  simp only [folderDisk] at performed
  split at performed <;> grind

theorem folderDisk_sound (breaks : Call → Bool) : (folderDisk breaks).Sound folderView where
  confined {call} _ _ _ _ written performed := by
    have cases := folderDisk_cases performed
    cases call <;> grind [Call.written?, Folder.after, View.SameOff]
  created performed := by
    have cases := folderDisk_cases performed
    grind [Folder.after]
  written held performed := by
    have cases := folderDisk_cases performed
    grind [Folder.after]
  flushed held performed := by
    have cases := folderDisk_cases performed
    grind [Folder.after]
  unmoved performed := by
    have cases := folderDisk_cases performed
    grind [Call.written?, View.SameOff]
  moved apart held performed := by
    have cases := folderDisk_cases performed
    grind [Folder.after, View.SameOff]
  removed held performed := by
    have cases := folderDisk_cases performed
    grind [Call.written?, Folder.after, View.SameOff]
  kept absent performed := by
    have cases := folderDisk_cases performed
    grind [Call.written?, Folder.after, View.SameOff, View.NoFile]

end Sample

end Offload
