import Offload.FileTree
import Offload.Proofs.Artifact.Steps

/-! Volumes whose steps are calls to a file system. Each call may be refused, and the laws of
`Disk.Sound` say what it changes then and otherwise. A recorded run keeps every call
with its answer and the state right after it. -/

namespace Offload

/-- A call to the file system. -/
inductive Call where
  | create (path : String)
  | write (path text : String)
  | flush (path : String)
  | rename (source target : String)
  | remove (path : String)
  deriving DecidableEq, Repr

/-- The path of a call that takes part in writing a text. -/
def Call.written? : Call → Option String
  | .create path | .write path _ | .flush path => some path
  | .rename .. | .remove _ => none

/-- A file system that answers one call after the other. A call that is refused may still
have changed the state. -/
structure Disk (σ : Type) where
  perform : Call → σ → σ × Option FileError

/-- Where paths lead, and what is there in a state. Two paths may lead to one place. -/
structure View (σ π : Type) where
  place : String → π
  look : σ → π → Option Entry

variable {σ π : Type}

/-- Both states hold the same outside of these places. -/
def View.SameOff (view : View σ π) (places : List π) (first second : σ) : Prop :=
  ∀ p, p ∉ places → view.look first p = view.look second p

/-- No regular file is at the end of the path. -/
def View.NoFile (view : View σ π) (state : σ) (path : String) : Prop :=
  ∀ text, view.look state (view.place path) ≠ some (.file text)

namespace View.SameOff

variable {view : View σ π} {places more : List π} {first second third : σ}

theorem refl (state : σ) : view.SameOff places state state := fun _ _ => rfl

theorem trans (start : view.SameOff places first second)
    (rest : view.SameOff places second third) : view.SameOff places first third :=
  fun p outside => (start p outside).trans (rest p outside)

theorem mono (same : view.SameOff places first second) (inside : ∀ p ∈ places, p ∈ more) :
    view.SameOff more first second :=
  fun p outside => same p fun member => outside (inside p member)

end View.SameOff

namespace Disk

/-- Performs calls up to the first that is refused. -/
def performAll (disk : Disk σ) : List Call → σ → σ × Option FileError
  | [], state => (state, none)
  | call :: rest, state =>
    match disk.perform call state with
    | (next, none) => performAll disk rest next
    | (next, some cause) => (next, some cause)

/-- A text is written in three calls. -/
def storing (path text : String) : List Call := [.create path, .write path text, .flush path]

def volume (disk : Disk σ) : Volume σ where
  store state path text := disk.performAll (storing path text) state
  rename state source target := disk.perform (.rename source target) state
  remove state path := (disk.perform (.remove path) state).1

/-- What is assumed of a file system. While a text is written only the place of its path may
change, and after a refused call it may hold anything. A file is moved as a whole or not
at all. Regular files can be removed. -/
structure Sound (disk : Disk σ) (view : View σ π) : Prop where
  confined : ∀ {call path state next error}, call.written? = some path →
    disk.perform call state = (next, error) → view.SameOff [view.place path] next state
  created : ∀ {path state next}, disk.perform (.create path) state = (next, none) →
    view.look next (view.place path) = some (.file "")
  written : ∀ {path text old state next}, view.look state (view.place path) = some (.file old) →
    disk.perform (.write path text) state = (next, none) →
    view.look next (view.place path) = some (.file (old ++ text))
  flushed : ∀ {path old state next}, view.look state (view.place path) = some (.file old) →
    disk.perform (.flush path) state = (next, none) →
    view.look next (view.place path) = some (.file old)
  unmoved : ∀ {source target state next cause},
    disk.perform (.rename source target) state = (next, some cause) → view.SameOff [] next state
  moved : ∀ {source target text state next}, view.place source ≠ view.place target →
    view.look state (view.place source) = some (.file text) →
    disk.perform (.rename source target) state = (next, none) →
    view.look next (view.place target) = some (.file text) ∧
      view.look next (view.place source) = none ∧
      view.SameOff [view.place source, view.place target] next state
  removed : ∀ {path text state next error},
    view.look state (view.place path) = some (.file text) →
    disk.perform (.remove path) state = (next, error) →
    view.look next (view.place path) = none ∧ view.SameOff [view.place path] next state
  kept : ∀ {path state next error}, view.NoFile state path →
    disk.perform (.remove path) state = (next, error) → view.SameOff [] next state

theorem performAll_cons_cases (disk : Disk σ) (call : Call) (rest : List Call) (state : σ) :
    (∃ next, disk.perform call state = (next, none) ∧
      disk.performAll (call :: rest) state = disk.performAll rest next) ∨
    ∃ next cause, disk.perform call state = (next, some cause) ∧
      disk.performAll (call :: rest) state = (next, some cause) := by
  rw [performAll]
  rcases disk.perform call state with ⟨next, _ | cause⟩
  · exact .inl ⟨next, rfl, rfl⟩
  · exact .inr ⟨next, cause, rfl, rfl⟩

end Disk

/-- A call that was made, its answer, and the state after it. -/
structure Point (σ : Type) where
  call : Call
  state : σ
  error : Option FileError

/-- A state with the calls that led to it. -/
structure Recorded (σ : Type) where
  state : σ
  log : List (Point σ)

/-- The disk that also records its calls. -/
def Disk.recorded (disk : Disk σ) : Disk (Recorded σ) where
  perform call before :=
    let answer := disk.perform call before.state
    (⟨answer.1, before.log ++ [⟨call, answer.1, answer.2⟩]⟩, answer.2)

/-- The event holds of every point between two recorded states. -/
def Recorded.Since (before after : Recorded σ) (event : Point σ → Prop) : Prop :=
  ∃ points, after.log = before.log ++ points ∧ ∀ point ∈ points, event point

namespace Recorded.Since

variable {before middle after : Recorded σ} {event other : Point σ → Prop}

theorem refl (before : Recorded σ) : before.Since before event :=
  ⟨[], (List.append_nil _).symm, nofun⟩

theorem trans (first : before.Since middle event) (second : middle.Since after event) :
    before.Since after event := by
  obtain ⟨points, start, holds⟩ := first
  obtain ⟨more, rest, later⟩ := second
  refine ⟨points ++ more, by rw [rest, start, List.append_assoc], ?_⟩
  intro point member
  exact (List.mem_append.mp member).elim (holds point) (later point)

theorem mono (since : before.Since after event) (weaker : ∀ point, event point → other point) :
    before.Since after other := by
  obtain ⟨points, same, holds⟩ := since
  exact ⟨points, same, fun point member => weaker point (holds point member)⟩

theorem and (since : before.Since after event) (also : before.Since after other) :
    before.Since after fun point => event point ∧ other point := by
  obtain ⟨points, same, holds⟩ := since
  obtain ⟨more, again, too⟩ := also
  obtain rfl : points = more := List.append_cancel_left (same.symm.trans again)
  exact ⟨points, same, fun point member => ⟨holds point member, too point member⟩⟩

theorem forall_mem (since : before.Since after event) (fresh : before.log = [])
    {point : Point σ} (member : point ∈ after.log) : event point := by
  obtain ⟨points, same, holds⟩ := since
  rw [fresh, List.nil_append] at same
  exact holds point (same ▸ member)

/-- What is in the log stays there. -/
theorem mem_log (since : before.Since after event) {point : Point σ} (member : point ∈ before.log) :
    point ∈ after.log := by
  obtain ⟨points, same, _⟩ := since
  exact same ▸ List.mem_append_left points member

end Recorded.Since

namespace Disk

variable {disk : Disk σ}

theorem of_recorded {call : Call} {before after : Recorded σ} {error : Option FileError}
    (performed : disk.recorded.perform call before = (after, error)) :
    disk.perform call before.state = (after.state, error) ∧
      after.log = before.log ++ [⟨call, after.state, error⟩] := by
  cases performed
  exact ⟨rfl, rfl⟩

theorem since_recorded {call : Call} {before after : Recorded σ} {error : Option FileError}
    {event : Point σ → Prop} (performed : disk.recorded.perform call before = (after, error))
    (holds : event ⟨call, after.state, error⟩) : before.Since after event :=
  ⟨_, (of_recorded performed).2, fun _ member => List.mem_singleton.mp member ▸ holds⟩

theorem recorded_performAll (disk : Disk σ) (calls : List Call) (before : Recorded σ) :
    (disk.recorded.performAll calls before).map Recorded.state id =
      disk.performAll calls before.state := by
  induction calls generalizing before with
  | nil => rfl
  | cons call rest ih =>
    rw [performAll.eq_2 disk]
    rcases disk.recorded.performAll_cons_cases call rest before with
      ⟨next, performed, same⟩ | ⟨next, cause, performed, same⟩
    · rw [same, ih, (of_recorded performed).1]
    · rw [same, (of_recorded performed).1]
      rfl

/-- Recording changes nothing about a run. -/
theorem recorded_follows (disk : Disk σ) :
    disk.recorded.volume.Follows disk.volume Recorded.state where
  store _ _ _ := recorded_performAll ..
  rename _ _ _ := rfl
  remove _ _ := rfl

section Storing

variable {view : View σ π} {path text : String}

/-- Writing a text changes nothing but its place, at no point. -/
theorem Sound.since_performAll (sound : disk.Sound view) {calls : List Call}
    (own : ∀ call ∈ calls, call.written? = some path) (before : Recorded σ) :
    view.SameOff [view.place path] (disk.recorded.performAll calls before).1.state before.state ∧
      before.Since (disk.recorded.performAll calls before).1 fun point =>
        point.call ∈ calls ∧ view.SameOff [view.place path] point.state before.state := by
  induction calls generalizing before with
  | nil => exact ⟨.refl _, .refl _⟩
  | cons call rest ih =>
    obtain ⟨first, others⟩ := List.forall_mem_cons.mp own
    rcases disk.recorded.performAll_cons_cases call rest before with
      ⟨next, performed, same⟩ | ⟨next, cause, performed, same⟩
    · have here := sound.confined first (of_recorded performed).1
      obtain ⟨later, points⟩ := ih others next
      rw [same]
      refine ⟨later.trans here, (since_recorded performed ⟨List.mem_cons_self, here⟩).trans ?_⟩
      apply points.mono
      intro point ⟨member, unchanged⟩
      exact ⟨List.mem_cons_of_mem _ member, unchanged.trans here⟩
    · have here := sound.confined first (of_recorded performed).1
      rw [same]
      exact ⟨here, since_recorded performed ⟨List.mem_cons_self, here⟩⟩

/-- Calls in a row are refused if one of them is. -/
theorem refused_performAll (disk : Disk σ) (calls : List Call) (before : Recorded σ) :
    ((disk.recorded.performAll calls before).2 = none ∧
      before.Since (disk.recorded.performAll calls before).1 fun point => point.error = none) ∨
    ((disk.recorded.performAll calls before).2 ≠ none ∧
      ∃ point ∈ (disk.recorded.performAll calls before).1.log,
        point.call ∈ calls ∧ point.error ≠ none) := by
  induction calls generalizing before with
  | nil => exact .inl ⟨rfl, .refl _⟩
  | cons call rest ih =>
    rcases disk.recorded.performAll_cons_cases call rest before with
      ⟨next, performed, same⟩ | ⟨next, cause, performed, same⟩
    · rw [same]
      rcases ih next with ⟨fine, others⟩ | ⟨refused, point, listed, member, failed⟩
      · refine .inl ⟨fine, Recorded.Since.trans ?_ others⟩
        exact since_recorded performed rfl
      · exact .inr ⟨refused, point, listed, List.mem_cons_of_mem _ member, failed⟩
    · rw [same, (of_recorded performed).2]
      exact .inr ⟨nofun, _, List.mem_append_right _ (List.mem_singleton_self _),
        List.mem_cons_self, nofun⟩

theorem performAll_cons_eq_none {call : Call} {rest : List Call} {state last : σ}
    (done : disk.performAll (call :: rest) state = (last, none)) :
    ∃ next, disk.perform call state = (next, none) ∧ disk.performAll rest next = (last, none) := by
  rcases disk.performAll_cons_cases call rest state with
    ⟨next, performed, same⟩ | ⟨next, cause, _, same⟩
  · exact ⟨next, performed, same ▸ done⟩
  · cases same.symm.trans done

/-- A text that could be written is there. -/
theorem Sound.look_of_stored (sound : disk.Sound view) {state last : σ}
    (stored : disk.performAll (storing path text) state = (last, none)) :
    view.look last (view.place path) = some (.file text) := by
  obtain ⟨opened, creates, afterCreate⟩ := performAll_cons_eq_none stored
  obtain ⟨filled, writes, afterWrite⟩ := performAll_cons_eq_none afterCreate
  obtain ⟨closed, flushes, afterFlush⟩ := performAll_cons_eq_none afterWrite
  cases afterFlush
  have full := sound.written (sound.created creates) writes
  rw [String.empty_append] at full
  exact sound.flushed full flushes

theorem written_storing : ∀ call ∈ storing path text, call.written? = some path := by
  intro call member
  simp only [storing, List.mem_cons, List.not_mem_nil, or_false] at member
  rcases member with rfl | rfl | rfl <;> rfl

theorem Sound.of_store (sound : disk.Sound view) {before after : Recorded σ}
    (stored : disk.recorded.volume.store before path text = (after, none)) :
    view.look after.state (view.place path) = some (.file text) ∧
      view.SameOff [view.place path] after.state before.state ∧
      before.Since after fun point => (point.call ∈ storing path text ∧
        view.SameOff [view.place path] point.state before.state) ∧ point.error = none := by
  have done : disk.recorded.performAll (storing path text) before = (after, none) := stored
  obtain ⟨unchanged, points⟩ :=
    sound.since_performAll (written_storing : ∀ call ∈ storing path text, _) before
  have unrecorded := disk.recorded_performAll (storing path text) before
  rw [done] at unchanged points unrecorded
  rcases disk.refused_performAll (storing path text) before with ⟨_, fine⟩ | ⟨refused, _⟩
  · rw [done] at fine
    exact ⟨sound.look_of_stored unrecorded.symm, unchanged, points.and fine⟩
  · rw [done] at refused
    exact absurd rfl refused

theorem Sound.of_store_refused (sound : disk.Sound view) {before after : Recorded σ}
    {cause : FileError}
    (refused : disk.recorded.volume.store before path text = (after, some cause)) :
    view.SameOff [view.place path] after.state before.state ∧
      (before.Since after fun point => point.call ∈ storing path text ∧
        view.SameOff [view.place path] point.state before.state) ∧
      ∃ point ∈ after.log, point.call ∈ storing path text ∧ point.error ≠ none := by
  have stopped : disk.recorded.performAll (storing path text) before = (after, some cause) :=
    refused
  obtain ⟨unchanged, points⟩ :=
    sound.since_performAll (written_storing : ∀ call ∈ storing path text, _) before
  rw [stopped] at unchanged points
  rcases disk.refused_performAll (storing path text) before with ⟨fine, _⟩ | ⟨_, failing⟩
  · rw [stopped] at fine
    cases fine
  · rw [stopped] at failing
    exact ⟨unchanged, points, failing⟩

end Storing

section Removing

variable {view : View σ π}

/-- A path that is removed leads to no file, and nothing else is changed. -/
theorem Sound.noFile_of_remove (sound : disk.Sound view) {path : String} {state next : σ}
    {error : Option FileError} (performed : disk.perform (.remove path) state = (next, error)) :
    view.NoFile next path ∧ view.SameOff [view.place path] next state := by
  by_cases absent : view.NoFile state path
  · have same := sound.kept absent performed
    refine ⟨fun text found => absent text ?_, same.mono nofun⟩
    rw [← same _ List.not_mem_nil]
    exact found
  · obtain ⟨text, found⟩ : ∃ text, view.look state (view.place path) = some (.file text) := by
      simpa [View.NoFile] using absent
    obtain ⟨gone, same⟩ := sound.removed found performed
    exact ⟨fun other held => (nomatch gone.symm.trans held), same⟩

/-- Where no file is, removing other files leaves none. -/
theorem Sound.noFile_of_noFile (sound : disk.Sound view) {path other : String} {state next : σ}
    {error : Option FileError} (performed : disk.perform (.remove path) state = (next, error))
    (absent : view.NoFile state other) : view.NoFile next other := by
  obtain ⟨none, same⟩ := sound.noFile_of_remove performed
  by_cases shared : view.place other = view.place path
  · intro text
    rw [shared]
    exact none text
  · intro text
    rw [same _ (by simpa using shared)]
    exact absent text

/-- All removed paths lead to no file, and the calls change nothing but their places. -/
theorem Sound.removeAll (sound : disk.Sound view) (paths : List String) (before : Recorded σ) :
    (∀ path, path ∈ paths ∨ view.NoFile before.state path →
      view.NoFile (disk.recorded.volume.removeAll before paths).state path) ∧
    view.SameOff (paths.map view.place) (disk.recorded.volume.removeAll before paths).state
      before.state ∧
    before.Since (disk.recorded.volume.removeAll before paths) fun point =>
      (∃ path, point.call = .remove path) ∧
        view.SameOff (paths.map view.place) point.state before.state := by
  induction paths generalizing before with
  | nil => exact ⟨fun path absent => absent.resolve_left List.not_mem_nil, .refl _, .refl _⟩
  | cons path rest ih =>
    rcases performed : disk.recorded.perform (.remove path) before with ⟨next, error⟩
    have same : disk.recorded.volume.removeAll before (path :: rest) =
        disk.recorded.volume.removeAll next rest :=
      congrArg (disk.recorded.volume.removeAll · rest) (congrArg Prod.fst performed)
    obtain ⟨absent, unchanged, points⟩ := ih next
    obtain ⟨none, here⟩ := sound.noFile_of_remove (of_recorded performed).1
    have first : view.SameOff ((path :: rest).map view.place) next.state before.state :=
      here.mono (by simp)
    have wider {state : σ} (later : view.SameOff (rest.map view.place) state next.state) :
        view.SameOff ((path :: rest).map view.place) state before.state :=
      (later.mono fun _ member => List.mem_cons_of_mem _ member).trans first
    rw [same]
    refine ⟨?_, wider unchanged, (since_recorded performed ⟨⟨path, rfl⟩, first⟩).trans ?_⟩
    · rintro other (listed | before)
      · rcases List.mem_cons.mp listed with rfl | inside
        · exact absent other (.inr none)
        · exact absent other (.inl inside)
      · exact absent other (.inr (sound.noFile_of_noFile (of_recorded performed).1 before))
    · exact points.mono fun point ⟨removes, later⟩ => ⟨removes, wider later⟩

end Removing

end Disk

end Offload
