import Offload.Artifact.Publish

namespace Offload

namespace Volume

variable {σ τ : Type}

/-- The texts are written beside their places, one after the other. -/
inductive Stores (volume : Volume σ) : List Delivery → σ → σ → Prop where
  | nil {state : σ} : Stores volume [] state state
  | cons {file : Delivery} {rest : List Delivery} {state next last : σ}
      (stored : volume.store state file.source file.text = (next, none))
      (others : Stores volume rest next last) : Stores volume (file :: rest) state last

/-- The staged files are moved to their places, one after the other. -/
inductive Moves (volume : Volume σ) : List Delivery → σ → σ → Prop where
  | nil {state : σ} : Moves volume [] state state
  | cons {file : Delivery} {rest : List Delivery} {state next last : σ}
      (moved : volume.rename state file.source file.target = (next, none))
      (others : Moves volume rest next last) : Moves volume (file :: rest) state last

/-- How the writing of files ends. -/
inductive Outcome (volume : Volume σ) (files : List Delivery) (state : σ) :
    σ → Except Fault Unit → Prop where
  | done {staged last : σ} (stored : volume.Stores files state staged)
      (moved : volume.Moves files staged last) : Outcome volume files state last (.ok ())
  | unwritten {before after : List Delivery} {file : Delivery} {next failed : σ}
      {cause : FileError} (split : files = before ++ file :: after)
      (stored : volume.Stores before state next)
      (refused : volume.store next file.source file.text = (failed, some cause)) :
      Outcome volume files state
        (volume.removeAll failed ((before ++ [file]).map Delivery.source))
        (.error (.cannotWrite file.source cause))
  | unmoved {before after : List Delivery} {file : Delivery} {staged next failed : σ}
      {cause : FileError} (split : files = before ++ file :: after)
      (stored : volume.Stores files state staged) (moved : volume.Moves before staged next)
      (refused : volume.rename next file.source file.target = (failed, some cause)) :
      Outcome volume files state
        (volume.removeAll failed ((file :: after).map Delivery.source))
        (.error (.cannotCreate file.target cause))

variable {volume : Volume σ}

private theorem stage_cases (written : List String) (files : List Delivery) (state : σ) :
    (∃ last, volume.Stores files state last ∧
      volume.stage written (files.map fun file => (file.source, file.text)) state =
        (last, .ok ())) ∨
    ∃ before file after next failed cause, files = before ++ file :: after ∧
      volume.Stores before state next ∧
      volume.store next file.source file.text = (failed, some cause) ∧
      volume.stage written (files.map fun file => (file.source, file.text)) state =
        (volume.removeAll failed (written ++ (before ++ [file]).map Delivery.source),
          .error (.cannotWrite file.source cause)) := by
  induction files generalizing written state with
  | nil => exact .inl ⟨state, .nil, rfl⟩
  | cons file rest ih =>
    rw [List.map_cons, stage]
    rcases stored : volume.store state file.source file.text with ⟨next, _ | cause⟩
    · rcases ih (written ++ [file.source]) next with
        ⟨last, others, ends⟩ |
        ⟨before, other, after, middle, failed, cause, rfl, some, refused, ends⟩
      · exact .inl ⟨last, .cons stored others, ends⟩
      · refine .inr ⟨file :: before, other, after, middle, failed, cause, rfl,
          .cons stored some, refused, ?_⟩
        simpa using ends
    · exact .inr ⟨[], file, rest, state, next, cause, rfl, .nil, stored, rfl⟩

private theorem deliver_cases (files : List Delivery) (state : σ) :
    (∃ last, volume.Moves files state last ∧ (volume.deliver files state).1 = last ∧
      (volume.deliver files state).2.result = .ok ()) ∨
    ∃ before file after next failed cause, files = before ++ file :: after ∧
      volume.Moves before state next ∧
      volume.rename next file.source file.target = (failed, some cause) ∧
      (volume.deliver files state).1 =
        volume.removeAll failed ((file :: after).map Delivery.source) ∧
      (volume.deliver files state).2.result = .error (.cannotCreate file.target cause) := by
  induction files generalizing state with
  | nil => exact .inl ⟨state, .nil, rfl, rfl⟩
  | cons file rest ih =>
    rw [deliver]
    rcases moved : volume.rename state file.source file.target with ⟨next, _ | cause⟩
    · rcases ih next with ⟨last, others, ends, result⟩ |
        ⟨before, other, after, middle, failed, cause, rfl, some, refused, ends, result⟩
      · exact .inl ⟨last, .cons moved others, ends, result⟩
      · exact .inr ⟨file :: before, other, after, middle, failed, cause, rfl,
          .cons moved some, refused, ends, result⟩
    · exact .inr ⟨[], file, rest, state, next, cause, rfl, .nil, moved, rfl, rfl⟩

/-- One volume does on its states what another does on the states that it stands for. -/
structure Follows (first : Volume σ) (second : Volume τ) (stands : σ → τ) : Prop where
  store : ∀ state path text,
    (first.store state path text).map stands id = second.store (stands state) path text
  rename : ∀ state source target,
    (first.rename state source target).map stands id = second.rename (stands state) source target
  remove : ∀ state path, stands (first.remove state path) = second.remove (stands state) path

namespace Follows

variable {first : Volume σ} {second : Volume τ} {stands : σ → τ}

theorem removeAll (follows : Follows first second stands) (state : σ) (paths : List String) :
    stands (first.removeAll state paths) = second.removeAll (stands state) paths := by
  induction paths generalizing state with
  | nil => rfl
  | cons path rest ih => exact (ih _).trans (congrArg (second.removeAll · rest) (follows.remove ..))

theorem stage (follows : Follows first second stands) (written : List String)
    (files : List (String × String)) (state : σ) :
    (first.stage written files state).map stands id =
      second.stage written files (stands state) := by
  induction files generalizing written state with
  | nil => rfl
  | cons file rest ih =>
    rw [Volume.stage, Volume.stage, ← follows.store]
    rcases first.store state file.1 file.2 with ⟨next, _ | cause⟩
    · exact ih _ next
    · exact congrArg (·, _) (follows.removeAll ..)

theorem deliver (follows : Follows first second stands) (files : List Delivery) (state : σ) :
    (first.deliver files state).map stands id = second.deliver files (stands state) := by
  induction files generalizing state with
  | nil => rfl
  | cons file rest ih =>
    rw [Volume.deliver, Volume.deliver, ← follows.rename]
    rcases first.rename state file.source file.target with ⟨next, _ | cause⟩
    · simp [← ih next]
    · exact congrArg (·, _) (follows.removeAll ..)

end Follows

end Volume

namespace OutputNames

variable {σ τ : Type}

theorem publish_outcome (names : OutputNames) (volume : Volume σ) (rendered : Rendered)
    (state : σ) :
    volume.Outcome (names.deliveries rendered) state (names.publish volume rendered state).1
      (names.publish volume rendered state).2.result := by
  rw [publish]
  rcases volume.stage_cases [] (names.deliveries rendered) state with
    ⟨staged, stored, ends⟩ |
    ⟨before, file, after, next, failed, cause, split, stored, refused, ends⟩
  · rw [ends]
    rcases volume.deliver_cases (names.deliveries rendered) staged with
      ⟨last, moved, rfl, result⟩ |
      ⟨before, file, after, next, failed, cause, split, moved, refused, same, result⟩
    · rw [result]
      exact .done stored moved
    · rw [same, result]
      exact .unmoved split stored moved refused
  · rw [ends]
    exact .unwritten split stored refused

theorem publish_follows {first : Volume σ} {second : Volume τ} {stands : σ → τ}
    (follows : first.Follows second stands) (names : OutputNames) (rendered : Rendered)
    (state : σ) :
    (names.publish first rendered state).map stands id =
      names.publish second rendered (stands state) := by
  rw [publish, publish, ← follows.stage]
  rcases first.stage [] _ state with ⟨staged, fault | _⟩
  · rfl
  · exact follows.deliver _ staged

end OutputNames

end Offload
