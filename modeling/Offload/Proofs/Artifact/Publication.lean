import Offload.Proofs.Artifact.Folder

namespace Offload

open Volume (Delivery Outcome)

variable {σ π : Type} {disk : Disk σ} {view : View σ π} {files : List Delivery}

namespace View

/-- The places of the staged files. -/
def sources (view : View σ π) (files : List Delivery) : List π :=
  files.map fun file => view.place file.source

/-- The places of the staged files and of their destinations. -/
def places (view : View σ π) (files : List Delivery) : List π :=
  files.flatMap fun file => [view.place file.source, view.place file.target]

/-- Each destination holds in the later state what it held before, or its complete text. -/
def Untorn (view : View σ π) (files : List Delivery) (before later : σ) : Prop :=
  ∀ file ∈ files,
    view.look later (view.place file.target) = view.look before (view.place file.target) ∨
      view.look later (view.place file.target) = some (.file file.text)

theorem places_append (first second : List Delivery) :
    view.places (first ++ second) = view.places first ++ view.places second :=
  List.flatMap_append

theorem sources_append (first second : List Delivery) :
    view.sources (first ++ second) = view.sources first ++ view.sources second :=
  List.map_append

theorem map_source (files : List Delivery) :
    (files.map Delivery.source).map view.place = view.sources files :=
  List.map_map

theorem source_mem_places {file : Delivery} (member : file ∈ files) :
    view.place file.source ∈ view.places files :=
  List.mem_flatMap.mpr ⟨file, member, by simp⟩

theorem target_mem_places {file : Delivery} (member : file ∈ files) :
    view.place file.target ∈ view.places files :=
  List.mem_flatMap.mpr ⟨file, member, by simp⟩

theorem sources_subset_places {p : π} (member : p ∈ view.sources files) :
    p ∈ view.places files := by
  obtain ⟨file, listed, rfl⟩ := List.mem_map.mp member
  exact source_mem_places listed

theorem nodup_cons {file : Delivery} {rest : List Delivery}
    (distinct : (view.places (file :: rest)).Nodup) :
    view.place file.source ≠ view.place file.target ∧
      view.place file.source ∉ view.places rest ∧ view.place file.target ∉ view.places rest ∧
      (view.places rest).Nodup := by
  have split : (view.place file.source :: view.place file.target :: view.places rest).Nodup :=
    distinct
  rw [List.nodup_cons, List.nodup_cons, List.mem_cons, not_or] at split
  exact ⟨split.1.1, split.1.2, split.2.1, split.2.2⟩

/-- No destination is the place of a staged file. -/
theorem target_not_mem_sources (distinct : (view.places files).Nodup) {file : Delivery}
    (member : file ∈ files) : view.place file.target ∉ view.sources files := by
  induction files with
  | nil => cases member
  | cons first rest ih =>
    obtain ⟨own, source, target, others⟩ := nodup_cons distinct
    intro staged
    rcases List.mem_cons.mp member with rfl | later
    · rcases List.mem_cons.mp staged with same | inside
      · exact own same.symm
      · exact target (sources_subset_places inside)
    · rcases List.mem_cons.mp staged with same | inside
      · have shared : view.place file.target = view.place first.source := same
        exact source (shared ▸ target_mem_places later)
      · exact ih others later inside

/-- While only staged files change, the destinations are as they were. -/
theorem kept (distinct : (view.places files).Nodup) {state other : σ}
    (same : view.SameOff (view.sources files) other state) :
    ∀ file ∈ files,
      view.look other (view.place file.target) = view.look state (view.place file.target) :=
  fun _ member => same _ (target_not_mem_sources distinct member)

/-- The place of its staged file tells where a file stands in the list. -/
theorem split_unique {before others after rest : List Delivery} {file other : Delivery}
    (distinct : (view.places (before ++ file :: after)).Nodup)
    (same : before ++ file :: after = others ++ other :: rest)
    (source : other.source = file.source) : before = others ∧ file :: after = other :: rest := by
  induction before generalizing others with
  | nil =>
    cases others with
    | nil => exact ⟨rfl, same⟩
    | cons first more =>
      obtain ⟨rfl, rfl⟩ := List.cons.inj same
      have shared : view.place other.source ∈ view.places (more ++ other :: rest) :=
        source_mem_places (by simp)
      exact absurd (source ▸ shared) (nodup_cons distinct).2.1
  | cons first more ih =>
    obtain ⟨_, apart, _, distinctMore⟩ := nodup_cons distinct
    cases others with
    | nil =>
      obtain ⟨rfl, _⟩ := List.cons.inj same
      have shared : view.place file.source ∈ view.places (more ++ file :: after) :=
        source_mem_places (by simp)
      exact absurd (source ▸ shared) apart
    | cons second others =>
      obtain ⟨rfl, tails⟩ := List.cons.inj same
      obtain ⟨rfl, ends⟩ := ih distinctMore tails
      exact ⟨rfl, ends⟩

end View

section Staging

variable {before after : Recorded σ}

/-- All texts are staged, and nothing but their places has changed, at no point. -/
theorem Disk.Sound.of_stores (sound : disk.Sound view) (distinct : (view.places files).Nodup)
    (stored : disk.recorded.volume.Stores files before after) :
    (∀ file ∈ files, view.look after.state (view.place file.source) = some (.file file.text)) ∧
      view.SameOff (view.sources files) after.state before.state ∧
      before.Since after fun point =>
        (∃ file ∈ files, point.call ∈ Disk.storing file.source file.text) ∧
          point.error = none ∧ view.SameOff (view.sources files) point.state before.state := by
  induction stored with
  | nil => exact ⟨nofun, .refl _, .refl _⟩
  | @cons file rest state next last stored _ ih =>
    obtain ⟨_, apart, _, others⟩ := View.nodup_cons distinct
    obtain ⟨text, here, first⟩ := sound.of_store stored
    obtain ⟨texts, later, points⟩ := ih others
    have start : view.SameOff (view.sources (file :: rest)) next.state state.state :=
      here.mono (by simp [View.sources])
    have wider {other : σ} (same : view.SameOff (view.sources rest) other next.state) :
        view.SameOff (view.sources (file :: rest)) other state.state :=
      (same.mono fun _ member => List.mem_cons_of_mem _ member).trans start
    refine ⟨?_, wider later, Recorded.Since.trans (first.mono ?_) (points.mono ?_)⟩
    · intro other member
      rcases List.mem_cons.mp member with rfl | inside
      · rw [later _ fun shared => apart (View.sources_subset_places shared), text]
      · exact texts other inside
    · intro point ⟨⟨call, same⟩, fine⟩
      exact ⟨⟨file, List.mem_cons_self, call⟩, fine, same.mono (by simp [View.sources])⟩
    · intro point ⟨⟨other, member, call⟩, fine, same⟩
      exact ⟨⟨other, List.mem_cons_of_mem _ member, call⟩, fine, wider same⟩

end Staging

section Moving

variable {before after : Recorded σ}

/-- All staged files are moved to their destinations, each of them in one step. -/
theorem Disk.Sound.of_moves (sound : disk.Sound view) (distinct : (view.places files).Nodup)
    (moved : disk.recorded.volume.Moves files before after)
    (staged : ∀ file ∈ files,
      view.look before.state (view.place file.source) = some (.file file.text)) :
    (∀ file ∈ files, view.look after.state (view.place file.target) = some (.file file.text) ∧
        view.look after.state (view.place file.source) = none) ∧
      view.SameOff (view.places files) after.state before.state ∧
      before.Since after fun point =>
        (∃ file ∈ files, point.call = .rename file.source file.target) ∧ point.error = none ∧
          view.SameOff (view.places files) point.state before.state ∧
          view.Untorn files before.state point.state := by
  induction moved with
  | nil => exact ⟨nofun, .refl _, .refl _⟩
  | @cons file rest state next last moved _ ih =>
    obtain ⟨own, source, target, others⟩ := View.nodup_cons distinct
    obtain ⟨fileStaged, restStaged⟩ := List.forall_mem_cons.mp staged
    obtain ⟨arrived, gone, here⟩ := sound.moved own fileStaged (Disk.of_recorded moved).1
    have start : view.SameOff (view.places (file :: rest)) next.state state.state :=
      here.mono fun _ member => List.mem_append_left _ member
    have wider {other : σ} (same : view.SameOff (view.places rest) other next.state) :
        view.SameOff (view.places (file :: rest)) other state.state :=
      (same.mono fun _ member => List.mem_append_right _ member).trans start
    -- The places of the other files are not those of the file that is moved first.
    have kept {p : π} (member : p ∈ view.places rest) :
        view.look next.state p = view.look state.state p := by
      apply here
      intro shared
      simp only [List.mem_cons, List.not_mem_nil, or_false] at shared
      rcases shared with rfl | rfl
      · exact source member
      · exact target member
    obtain ⟨ends, later, points⟩ := ih others fun other member => by
      rw [kept (View.source_mem_places member), restStaged other member]
    refine ⟨?_, wider later, Recorded.Since.trans (Disk.since_recorded moved ?_) (points.mono ?_)⟩
    · intro other member
      rcases List.mem_cons.mp member with rfl | inside
      · rw [later _ target, later _ source]
        exact ⟨arrived, gone⟩
      · exact ends other inside
    · refine ⟨⟨file, List.mem_cons_self, rfl⟩, rfl, start, ?_⟩
      intro other member
      rcases List.mem_cons.mp member with rfl | inside
      · exact .inr arrived
      · exact .inl (kept (View.target_mem_places inside))
    · intro point ⟨⟨other, member, call⟩, fine, same, targets⟩
      refine ⟨⟨other, List.mem_cons_of_mem _ member, call⟩, fine, wider same, ?_⟩
      intro file member
      rcases List.mem_cons.mp member with rfl | inside
      · exact .inr (by rw [same _ target, arrived])
      · rw [← kept (View.target_mem_places inside)]
        exact targets file inside

/-- When a file cannot be moved, those before it have arrived and the others wait. -/
theorem Disk.Sound.of_refused_move (sound : disk.Sound view) {first rest : List Delivery}
    {file : Delivery} (distinct : (view.places (first ++ file :: rest)).Nodup)
    {middle : Recorded σ} {cause : FileError}
    (moved : disk.recorded.volume.Moves first before middle)
    (refused : disk.recorded.volume.rename middle file.source file.target = (after, some cause))
    (staged : ∀ other ∈ first,
      view.look before.state (view.place other.source) = some (.file other.text)) :
    (∀ other ∈ first, view.look after.state (view.place other.target) = some (.file other.text) ∧
        view.look after.state (view.place other.source) = none) ∧
      (∀ other ∈ file :: rest, view.look after.state (view.place other.target) =
        view.look before.state (view.place other.target)) ∧
      before.Since after fun point => point.call.written? = none ∧
        (point.error = none ∨ point.call = .rename file.source file.target) ∧
        view.Untorn (first ++ file :: rest) before.state point.state := by
  rw [View.places_append] at distinct
  obtain ⟨distinctFirst, _, apart⟩ := List.nodup_append.mp distinct
  obtain ⟨ends, off, moving⟩ := sound.of_moves distinctFirst moved staged
  have still := sound.unmoved (Disk.of_recorded refused).1
  have waiting {state : σ} (same : view.SameOff (view.places first) state before.state) :
      ∀ other ∈ file :: rest, view.look state (view.place other.target) =
        view.look before.state (view.place other.target) :=
    fun other member => same _ fun inside =>
      apart _ inside _ (View.target_mem_places member) rfl
  have unmoved := waiting ((still.mono nofun).trans off)
  have arrived : ∀ other ∈ first,
      view.look after.state (view.place other.target) = some (.file other.text) ∧
        view.look after.state (view.place other.source) = none := by
    intro other member
    rw [still _ List.not_mem_nil, still _ List.not_mem_nil]
    exact ends other member
  refine ⟨arrived, unmoved, Recorded.Since.trans (moving.mono ?_) (Disk.since_recorded refused ?_)⟩
  · intro point ⟨⟨other, _, call⟩, fine, same, targets⟩
    refine ⟨by rw [call]; rfl, .inl fine, ?_⟩
    intro other member
    rcases List.mem_append.mp member with inFront | behind
    · exact targets other inFront
    · exact .inl (waiting same other behind)
  · refine ⟨rfl, .inr rfl, ?_⟩
    intro other member
    rcases List.mem_append.mp member with inFront | behind
    · exact .inr (arrived other inFront).1
    · exact .inl (unmoved other behind)

end Moving

section Failure

variable {start next staged failed : Recorded σ} {before after : List Delivery} {file : Delivery}
  {cause : FileError}

/-- What is left of a run that could not stage a text, once the staged files are removed: it
has called nothing but to write or remove them, and nothing else has changed at any point. -/
theorem Disk.Sound.of_failed_store (sound : disk.Sound view)
    (distinct : (view.places before).Nodup) (stored : disk.recorded.volume.Stores before start next)
    (refused : disk.recorded.volume.store next file.source file.text = (failed, some cause)) :
    let final := disk.recorded.volume.removeAll failed ((before ++ [file]).map Delivery.source)
    (∀ other ∈ before ++ [file], view.NoFile final.state other.source) ∧
      view.SameOff (view.sources (before ++ [file])) final.state start.state ∧
      (∃ point ∈ final.log, point.call ∈ Disk.storing file.source file.text ∧
        point.error ≠ none) ∧
      start.Since final fun point =>
        ((∃ other ∈ before ++ [file], point.call.written? = some other.source) ∨
          ∃ path, point.call = .remove path) ∧
        view.SameOff (view.sources (before ++ [file])) point.state start.state := by
  intro final
  obtain ⟨_, offStage, staging⟩ := sound.of_stores distinct stored
  obtain ⟨offRefused, refusing, point, logged, failing⟩ := sound.of_store_refused refused
  obtain ⟨absent, offRemove, removing⟩ :=
    sound.removeAll ((before ++ [file]).map Delivery.source) failed
  rw [View.map_source] at offRemove removing
  have first {state : σ} (same : view.SameOff (view.sources before) state start.state) :
      view.SameOff (view.sources (before ++ [file])) state start.state :=
    same.mono fun _ member => by
      rw [View.sources_append]
      exact List.mem_append_left _ member
  have second {state : σ} (same : view.SameOff [view.place file.source] state next.state) :
      view.SameOff (view.sources (before ++ [file])) state start.state :=
    (same.mono fun _ member => by
      rw [View.sources_append]
      exact List.mem_append_right _ member).trans (first offStage)
  refine ⟨fun other member => absent other.source (.inl (List.mem_map_of_mem member)),
    offRemove.trans (second offRefused), ⟨point, removing.mem_log logged, failing⟩,
    Recorded.Since.trans (staging.mono ?_)
      (Recorded.Since.trans (refusing.mono ?_) (removing.mono ?_))⟩
  · intro point ⟨⟨other, member, call⟩, _, same⟩
    have written := Disk.written_storing _ call
    exact ⟨.inl ⟨other, List.mem_append_left _ member, written⟩, first same⟩
  · intro point ⟨call, same⟩
    have written := Disk.written_storing _ call
    exact ⟨.inl ⟨file, List.mem_append_right _ (List.mem_singleton_self _), written⟩, second same⟩
  · intro point ⟨remove, same⟩
    exact ⟨.inr remove, same.trans (second offRefused)⟩

/-- Where only the places of the waiting files differ from the state after a refused move,
the files before it have arrived and the other destinations are as they were at the start. -/
theorem Disk.Sound.targets_of_refused_move (sound : disk.Sound view)
    (distinct : (view.places (before ++ file :: after)).Nodup)
    (stored : disk.recorded.volume.Stores (before ++ file :: after) start staged)
    (moved : disk.recorded.volume.Moves before staged next)
    (refused : disk.recorded.volume.rename next file.source file.target = (failed, some cause))
    {state : σ} (same : view.SameOff (view.sources (file :: after)) state failed.state) :
    (∀ other ∈ before, view.look state (view.place other.target) = some (.file other.text)) ∧
      ∀ other ∈ file :: after, view.look state (view.place other.target) =
        view.look start.state (view.place other.target) := by
  obtain ⟨texts, off, _⟩ := sound.of_stores distinct stored
  obtain ⟨arrived, waiting, _⟩ := sound.of_refused_move distinct moved refused
    fun other member => texts other (List.mem_append_left _ member)
  have settled : ∀ other ∈ before ++ file :: after, view.look state (view.place other.target) =
      view.look failed.state (view.place other.target) := by
    intro other member
    apply same
    intro inside
    apply View.target_not_mem_sources distinct member
    rw [View.sources_append]
    exact List.mem_append_right _ inside
  constructor
  · intro other member
    rw [settled other (List.mem_append_left _ member)]
    exact (arrived other member).1
  · intro other member
    have listed := List.mem_append_right before member
    rw [settled other listed, waiting other member, View.kept distinct off other listed]

/-- What is left of a run that could not move a file, once the files that wait are removed: no
text was refused, no other file was, and no destination was torn at any point. -/
theorem Disk.Sound.of_failed_move (sound : disk.Sound view)
    (distinct : (view.places (before ++ file :: after)).Nodup)
    (stored : disk.recorded.volume.Stores (before ++ file :: after) start staged)
    (moved : disk.recorded.volume.Moves before staged next)
    (refused : disk.recorded.volume.rename next file.source file.target = (failed, some cause)) :
    let final := disk.recorded.volume.removeAll failed ((file :: after).map Delivery.source)
    view.SameOff (view.sources (file :: after)) final.state failed.state ∧
      (∀ other ∈ before ++ file :: after, view.NoFile final.state other.source) ∧
      (∃ point ∈ final.log, point.call = .rename file.source file.target ∧ point.error ≠ none) ∧
      start.Since final fun point =>
        (point.error = none ∨ point.call.written? = none) ∧
        (∀ source target, point.call = .rename source target → point.error ≠ none →
          source = file.source) ∧
        view.Untorn (before ++ file :: after) start.state point.state := by
  intro final
  obtain ⟨texts, off, staging⟩ := sound.of_stores distinct stored
  obtain ⟨arrived, _, moving⟩ := sound.of_refused_move distinct moved refused
    fun other member => texts other (List.mem_append_left _ member)
  obtain ⟨absent, offRemove, removing⟩ :=
    sound.removeAll ((file :: after).map Delivery.source) failed
  rw [View.map_source] at offRemove removing
  have logged := (Disk.of_recorded refused).2 ▸
    List.mem_append_right next.log (List.mem_singleton_self _)
  refine ⟨offRemove, ?_, ⟨_, removing.mem_log logged, rfl, nofun⟩,
    Recorded.Since.trans (staging.mono ?_)
      (Recorded.Since.trans (moving.mono ?_) (removing.mono ?_))⟩
  · intro other member
    rcases List.mem_append.mp member with inFront | behind
    · apply absent other.source (.inr _)
      intro text found
      cases found.symm.trans (arrived other inFront).2
    · exact absent other.source (.inl (List.mem_map_of_mem behind))
  · intro point ⟨_, fine, same⟩
    exact ⟨.inl fine, fun _ _ _ failed => absurd fine failed,
      fun other member => .inl (View.kept distinct same other member)⟩
  · intro point ⟨move, answer, targets⟩
    refine ⟨.inr move, fun source target call failed => ?_, fun other member => ?_⟩
    · cases call.symm.trans (answer.resolve_left failed)
      rfl
    · rw [← View.kept distinct off other member]
      exact targets other member
  · intro point ⟨⟨path, call⟩, same⟩
    obtain ⟨here, there⟩ := sound.targets_of_refused_move distinct stored moved refused same
    refine ⟨.inr (by rw [call]; rfl), by simp [call], fun other member => ?_⟩
    exact (List.mem_append.mp member).elim (fun inFront => .inr (here other inFront))
      fun behind => .inl (there other behind)

end Failure

/-- What a run of the writer does, in the view of the file system. -/
structure Published (view : View σ π) (files : List Delivery) (state : σ) (final : Recorded σ)
    (result : Except Fault Unit) : Prop where
  /-- The run succeeds if no step of it is refused; the removal of files does not count. -/
  succeeds : result = .ok () ↔
    ∀ point ∈ final.log, (∃ path, point.call = .remove path) ∨ point.error = none
  complete : result = .ok () → ∀ file ∈ files,
    view.look final.state (view.place file.target) = some (.file file.text) ∧
      view.look final.state (view.place file.source) = none
  /-- A text that cannot be staged leaves everything else as it was. -/
  untouched : (∃ point ∈ final.log, point.call.written?.isSome ∧ point.error ≠ none) →
    view.SameOff (view.sources files) final.state state
  /-- A file that cannot be moved leaves its destination and the later ones as they were. -/
  stopped : ∀ before file after, files = before ++ file :: after →
    (∃ point ∈ final.log, point.call = .rename file.source file.target ∧ point.error ≠ none) →
    (∀ other ∈ before,
      view.look final.state (view.place other.target) = some (.file other.text)) ∧
    ∀ other ∈ file :: after, view.look final.state (view.place other.target) =
      view.look state (view.place other.target)
  cleared : ∀ fault, result = .error fault → fault.kind = .setup ∧
    ∀ file ∈ files, (∃ point ∈ final.log, point.call = .create file.source) →
      view.NoFile final.state file.source
  /-- At no point is a destination torn. -/
  whole : ∀ point ∈ final.log, view.Untorn files state point.state

namespace Published

variable {start final : Recorded σ}

theorem of_done (sound : disk.Sound view) (distinct : (view.places files).Nodup)
    (fresh : start.log = []) {staged : Recorded σ}
    (stored : disk.recorded.volume.Stores files start staged)
    (moved : disk.recorded.volume.Moves files staged final) :
    Published view files start.state final (.ok ()) := by
  obtain ⟨texts, off, staging⟩ := sound.of_stores distinct stored
  obtain ⟨ends, _, moving⟩ := sound.of_moves distinct moved texts
  have points : start.Since final fun point =>
      point.error = none ∧ view.Untorn files start.state point.state := by
    refine Recorded.Since.trans (staging.mono ?_) (moving.mono ?_)
    · intro point ⟨_, fine, same⟩
      exact ⟨fine, fun file member => .inl (View.kept distinct same file member)⟩
    · intro point ⟨_, fine, _, targets⟩
      refine ⟨fine, fun file member => ?_⟩
      rw [← View.kept distinct off file member]
      exact targets file member
  have fine {point : Point σ} (member : point ∈ final.log) : point.error = none :=
    (points.forall_mem fresh member).1
  exact {
    succeeds := ⟨fun _ _ member => .inr (fine member), fun _ => rfl⟩
    complete := fun _ => ends
    untouched := fun ⟨point, member, _, failed⟩ => absurd (fine member) failed
    stopped := fun _ _ _ _ ⟨point, member, _, failed⟩ => absurd (fine member) failed
    cleared := nofun
    whole := fun point member => (points.forall_mem fresh member).2 }

/-- The failed text and those before it are removed, and no destination has been touched. -/
theorem of_unwritten (sound : disk.Sound view) (distinct : (view.places files).Nodup)
    (fresh : start.log = []) {before after : List Delivery} {file : Delivery}
    {next failed : Recorded σ} {cause : FileError} (split : files = before ++ file :: after)
    (stored : disk.recorded.volume.Stores before start next)
    (refused : disk.recorded.volume.store next file.source file.text = (failed, some cause)) :
    Published view files start.state
      (disk.recorded.volume.removeAll failed ((before ++ [file]).map Delivery.source))
      (.error (.cannotWrite file.source cause)) := by
  have distinctBefore : (view.places before).Nodup := by
    rw [split, View.places_append] at distinct
    exact (List.nodup_append.mp distinct).1
  obtain ⟨absent, off, ⟨point, logged, call, error⟩, points⟩ :=
    sound.of_failed_store distinctBefore stored refused
  have wider {state : σ} (same : view.SameOff (view.sources (before ++ [file])) state start.state) :
      view.SameOff (view.sources files) state start.state := by
    apply same.mono
    intro place member
    rw [split, List.append_cons, View.sources_append]
    exact List.mem_append_left _ member
  exact {
    succeeds := by
      refine ⟨nofun, fun all => ?_⟩
      rcases all point logged with ⟨path, remove⟩ | fine
      · rw [remove] at call
        cases Disk.written_storing _ call
      · exact absurd fine error
    complete := nofun
    untouched := fun _ => wider off
    stopped := by
      intro _ _ _ _ ⟨point, member, call, _⟩
      rcases (points.forall_mem fresh member).1 with ⟨other, _, written⟩ | ⟨path, remove⟩
      · rw [call] at written
        cases written
      · cases call.symm.trans remove
    cleared := by
      intro fault failure
      cases failure
      refine ⟨rfl, ?_⟩
      intro created _ ⟨point, member, call⟩
      rcases (points.forall_mem fresh member).1 with ⟨other, listed, written⟩ | ⟨path, remove⟩
      · rw [call] at written
        have source : created.source = other.source := Option.some.inj written
        exact source ▸ absent other listed
      · cases call.symm.trans remove
    whole := fun point member file listed =>
      .inl (View.kept distinct (wider (points.forall_mem fresh member).2) file listed) }

/-- The files before the failed one have arrived, and what is still staged is removed. -/
theorem of_unmoved (sound : disk.Sound view) (distinct : (view.places files).Nodup)
    (fresh : start.log = []) {before after : List Delivery} {file : Delivery}
    {staged next failed : Recorded σ} {cause : FileError} (split : files = before ++ file :: after)
    (stored : disk.recorded.volume.Stores files start staged)
    (moved : disk.recorded.volume.Moves before staged next)
    (refused : disk.recorded.volume.rename next file.source file.target = (failed, some cause)) :
    Published view files start.state
      (disk.recorded.volume.removeAll failed ((file :: after).map Delivery.source))
      (.error (.cannotCreate file.target cause)) := by
  subst split
  obtain ⟨off, absent, ⟨point, logged, call, error⟩, points⟩ :=
    sound.of_failed_move distinct stored moved refused
  exact {
    succeeds := by
      refine ⟨nofun, fun all => ?_⟩
      rcases all point logged with ⟨path, remove⟩ | fine
      · cases call.symm.trans remove
      · exact absurd fine error
    complete := nofun
    untouched := by
      intro ⟨point, member, written, failed⟩
      have move := (points.forall_mem fresh member).1.resolve_left failed
      rw [move] at written
      cases written
    stopped := by
      intro others other rest same ⟨point, member, call, failed⟩
      have source := (points.forall_mem fresh member).2.1 _ _ call failed
      obtain ⟨rfl, tails⟩ := View.split_unique distinct same source
      rw [← tails]
      exact sound.targets_of_refused_move distinct stored moved refused off
    cleared := by
      intro fault failure
      cases failure
      exact ⟨rfl, fun other member _ => absent other member⟩
    whole := fun point member => (points.forall_mem fresh member).2.2 }

end Published

theorem OutputNames.nodup_places {names : OutputNames} (rendered : Rendered)
    (distinct : ((names.paths ++ names.stagingPaths).map view.place).Nodup) :
    (view.places (names.deliveries rendered)).Nodup := by
  simp only [paths, stagingPaths, List.map_cons, List.map_nil, List.cons_append, List.nil_append,
    List.nodup_cons, List.mem_cons, List.not_mem_nil, not_or] at distinct
  simp only [View.places, deliveries, paths, Rendered.texts, List.zip_cons_cons, List.zip_nil_left,
    List.map_cons, List.map_nil, List.flatMap_cons, List.flatMap_nil, List.cons_append,
    List.nil_append, List.nodup_cons, List.mem_cons, List.not_mem_nil, not_or]
  grind

/-- Writing the generated files either completes every destination, or it stops with a setup
error at the first step that is refused. It never tears a destination, and it leaves
nothing staged behind. This is so on every sound disk, if the three destinations and
the three staged files are six places. -/
theorem published_in_stages (sound : disk.Sound view) (names : OutputNames) (rendered : Rendered)
    (distinct : ((names.paths ++ names.stagingPaths).map view.place).Nodup) (state : σ) :
    ∃ final traced,
      names.publish disk.recorded.volume rendered ⟨state, []⟩ = (final, traced) ∧
      names.publish disk.volume rendered state = (final.state, traced) ∧
      Published view (names.deliveries rendered) state final traced.result := by
  have unrecorded := OutputNames.publish_follows disk.recorded_follows names rendered ⟨state, []⟩
  have outcome := names.publish_outcome disk.recorded.volume rendered ⟨state, []⟩
  have places := OutputNames.nodup_places rendered distinct
  rcases run : names.publish disk.recorded.volume rendered ⟨state, []⟩ with ⟨final, events, result⟩
  rw [run] at unrecorded outcome
  refine ⟨final, ⟨events, result⟩, rfl, unrecorded.symm, ?_⟩
  cases outcome with
  | done stored moved => exact .of_done sound places rfl stored moved
  | unwritten split stored refused => exact .of_unwritten sound places rfl split stored refused
  | unmoved split stored moved refused =>
    exact .of_unmoved sound places rfl split stored moved refused

namespace Sample

/-- Earlier output, and a directory in the place of the kernel module. -/
def earlier : Folder where
  entry
    | "out.c" => some (.file "old host")
    | "out_kernel.cl" => some .dir
    | _ => none

def outputs : OutputNames := ⟨"out.c", "out_kernel.cl", "out_kernel.h"⟩

def texts : Rendered := ⟨"new host", "new kernel", "new header"⟩

def headerBreaks (call : Call) : Bool := call == .flush "out_kernel.h.tmp"

end Sample

/-- On one disk the header cannot be staged and all stays as it was. On another the kernel
module cannot be moved, after the host code has been. -/
theorem published_into_folder :
    (∃ final traced,
      Sample.outputs.publish (Sample.folderDisk Sample.headerBreaks).volume Sample.texts
        Sample.earlier = (final, traced) ∧
      traced.result = .error (.cannotWrite "out_kernel.h.tmp" .busy) ∧
      final.entry "out.c" = some (.file "old host") ∧
      Sample.folderView.NoFile final "out_kernel.h.tmp") ∧
    ∃ final traced,
      Sample.outputs.publish (Sample.folderDisk fun _ => false).volume Sample.texts
        Sample.earlier = (final, traced) ∧
      traced.result = .error (.cannotCreate "out_kernel.cl" .isDirectory) ∧
      final.entry "out.c" = some (.file "new host") ∧
      final.entry "out_kernel.cl" = some .dir ∧
      Sample.folderView.NoFile final "out_kernel.h.tmp" := by
  have distinct : ((Sample.outputs.paths ++ Sample.outputs.stagingPaths).map
    Sample.folderView.place).Nodup := by decide
  constructor
  · obtain ⟨final, traced, recorded, unrecorded, published⟩ := published_in_stages
      (Sample.folderDisk_sound Sample.headerBreaks) Sample.outputs Sample.texts distinct
      Sample.earlier
    have result : traced.result = .error (.cannotWrite "out_kernel.h.tmp" .busy) :=
      congrArg (·.2.result) recorded.symm
    have called : final.log.map (fun point => (point.call, point.error)) = _ :=
      congrArg (·.1.log.map fun point => (point.call, point.error)) recorded.symm
    obtain ⟨created, inside, create⟩ : ∃ point ∈ final.log, (point.call, point.error) =
        (.create "out_kernel.h.tmp", none) := List.mem_map.mp (called ▸ by decide)
    obtain ⟨failed, listed, failure⟩ : ∃ point ∈ final.log, (point.call, point.error) =
        (.flush "out_kernel.h.tmp", some .busy) := List.mem_map.mp (called ▸ by decide)
    obtain ⟨flush, busy⟩ := Prod.mk.inj failure
    have untouched := published.untouched ⟨failed, listed, by rw [flush]; rfl, by simp [busy]⟩
    obtain ⟨_, cleared⟩ := published.cleared _ result
    exact ⟨final.state, traced, unrecorded, result, untouched "out.c" (by decide),
      cleared ⟨"out_kernel.h.tmp", "out_kernel.h", "new header"⟩ (by decide)
        ⟨created, inside, (Prod.mk.inj create).1⟩⟩
  · obtain ⟨final, traced, recorded, unrecorded, published⟩ := published_in_stages
      (Sample.folderDisk_sound fun _ => false) Sample.outputs Sample.texts distinct Sample.earlier
    have result : traced.result = .error (.cannotCreate "out_kernel.cl" .isDirectory) :=
      congrArg (·.2.result) recorded.symm
    have called : final.log.map (fun point => (point.call, point.error)) = _ :=
      congrArg (·.1.log.map fun point => (point.call, point.error)) recorded.symm
    obtain ⟨created, inside, create⟩ : ∃ point ∈ final.log, (point.call, point.error) =
        (.create "out_kernel.h.tmp", none) := List.mem_map.mp (called ▸ by decide)
    obtain ⟨failed, listed, failure⟩ : ∃ point ∈ final.log, (point.call, point.error) =
        (.rename "out_kernel.cl.tmp" "out_kernel.cl", some .isDirectory) :=
      List.mem_map.mp (called ▸ by decide)
    obtain ⟨rename, refused⟩ := Prod.mk.inj failure
    obtain ⟨arrived, waiting⟩ := published.stopped [⟨"out.c.tmp", "out.c", "new host"⟩]
      ⟨"out_kernel.cl.tmp", "out_kernel.cl", "new kernel"⟩
      [⟨"out_kernel.h.tmp", "out_kernel.h", "new header"⟩] rfl
      ⟨failed, listed, rename, by simp [refused]⟩
    obtain ⟨_, cleared⟩ := published.cleared _ result
    exact ⟨final.state, traced, unrecorded, result, arrived _ (List.mem_singleton_self _),
      waiting _ List.mem_cons_self,
      cleared ⟨"out_kernel.h.tmp", "out_kernel.h", "new header"⟩ (by decide)
        ⟨created, inside, (Prod.mk.inj create).1⟩⟩

end Offload
