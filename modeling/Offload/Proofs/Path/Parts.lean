import Offload.Path

/-! The parts of a path: what leads to its last segment, the segment, and what stands behind
it without naming anything. Every function on paths is settled by them. -/

namespace Offload.Path

/-- What may stand behind a segment without naming anything: slashes, and segments `.`. -/
inductive Idle : List Char → Prop where
  | nil : Idle []
  | slash {front : List Char} (idle : Idle front) : Idle (front ++ ['/'])
  | point {front : List Char} (idle : Idle front) : Idle (front ++ ['/', '.'])

/-- What may stand before a segment: nothing, or a text that ends with a slash. -/
def Leads (lead : List Char) : Prop := lead = [] ∨ ∃ front, lead = front ++ ['/']

/-- A segment that is not passed over; it may still be `..`. -/
structure Counts (segment : List Char) : Prop where
  nonempty : segment ≠ []
  notHere : segment ≠ ['.']
  solid : '/' ∉ segment

/-- A path taken apart at its last segment that counts. -/
structure Parts (path lead segment trail : List Char) : Prop where
  joined : path = lead ++ segment ++ trail
  leads : Leads lead
  counts : Counts segment
  idle : Idle trail

theorem Counts.append {segment suffix : List Char} (counts : Counts segment)
    (filled : suffix ≠ []) (plain : '/' ∉ suffix) : Counts (segment ++ suffix) where
  nonempty := by simp [counts.nonempty]
  notHere := by simp [List.append_eq_cons_iff, counts.nonempty, filled]
  solid := by simp [counts.solid, plain]

theorem Counts.append_notUp {segment suffix : List Char} (counts : Counts segment)
    (long : 2 ≤ suffix.length) : segment ++ suffix ≠ ['.', '.'] := by
  intro same
  have total := congrArg List.length same
  have filled := List.length_pos_iff.mpr counts.nonempty
  simp only [List.length_append, List.length_cons, List.length_nil] at total
  omega

theorem Idle.of_prefix {trail front : List Char} (idle : Idle trail) (start : front <+: trail) :
    Idle front := by
  induction idle with
  | nil =>
    rw [List.prefix_nil.mp start]
    exact .nil
  | slash idle ih =>
    rcases List.prefix_concat_iff.mp start with same | shorter
    · rw [same]
      exact .slash idle
    · exact ih shorter
  | @point before idle ih =>
    have joined : before ++ ['/', '.'] = (before ++ ['/']) ++ ['.'] := by simp
    rcases List.prefix_concat_iff.mp (joined ▸ start) with same | shorter
    · rw [same, ← joined]
      exact .point idle
    · rcases List.prefix_concat_iff.mp shorter with same | shorter
      · rw [same]
        exact .slash idle
      · exact ih shorter

section Trim

variable {rest trail : List Char}

theorem trimRev_slash (nonempty : rest ≠ []) : trimRev ('/' :: rest) = trimRev rest := by
  rw [trimRev, if_neg (by simpa using nonempty)]

private theorem trimRev_point (rest : List Char) :
    trimRev ('.' :: '/' :: rest) = trimRev ('/' :: rest) :=
  rfl

private theorem length_trimRev_le (path : List Char) : (trimRev path).length ≤ path.length := by
  fun_induction trimRev path with
  | case1 rest empty => simp
  | case2 rest nonempty ih => exact Nat.le_succ_of_le ih
  | case3 rest ih => exact Nat.le_succ_of_le ih
  | case4 path => exact Nat.le_refl _

theorem trimRev_trimRev (path : List Char) : trimRev (trimRev path) = trimRev path := by
  fun_induction trimRev path with
  | case1 rest empty => rfl
  | case2 rest nonempty ih => exact ih
  | case3 rest ih => exact ih
  | case4 path noSlash noPoint => rw [trimRev.eq_3 path noSlash noPoint]

private theorem trimRev_idle (idle : Idle trail) (nonempty : rest ≠ []) :
    trimRev (trail.reverse ++ rest) = trimRev rest := by
  induction idle with
  | nil => rfl
  | @slash front idle ih =>
    rw [List.reverse_concat, List.cons_append, trimRev_slash (by simp [nonempty])]
    exact ih
  | @point front idle ih =>
    rw [List.reverse_append, List.append_assoc]
    change trimRev ('.' :: '/' :: (front.reverse ++ rest)) = _
    rw [trimRev_point, trimRev_slash (by simp [nonempty])]
    exact ih

/-- A trimmed path is the root, or only an idle trail was taken off. -/
theorem trimRev_cases (path : List Char) :
    trimRev path = ['/'] ∨ ∃ trail, Idle trail ∧ path = trail.reverse ++ trimRev path := by
  fun_induction trimRev path with
  | case1 rest empty => exact .inl rfl
  | case2 rest nonempty ih =>
    rcases ih with root | ⟨trail, idle, same⟩
    · exact .inl root
    · refine .inr ⟨trail ++ ['/'], .slash idle, ?_⟩
      rw [List.reverse_concat, List.cons_append, ← same]
  | case3 rest ih =>
    rcases ih with root | ⟨trail, idle, same⟩
    · exact .inl root
    · cases idle with
      | nil =>
        -- Nothing was taken off, so what is left is the root.
        cases rest with
        | nil => exact .inl rfl
        | cons c more =>
          have shorter := length_trimRev_le (c :: more)
          rw [trimRev_slash (by simp)] at same
          have longer := congrArg List.length same
          simp only [List.reverse_nil, List.nil_append, List.length_cons] at longer shorter
          omega
      | @slash front idle =>
        refine .inr ⟨front ++ ['/', '.'], .point idle, ?_⟩
        simpa using same
      | point idle => simp at same
  | case4 path => exact .inr ⟨[], .nil, rfl⟩

end Trim

/-- Nothing is taken off a segment that counts. -/
theorem trimRev_segment {segment : List Char} (counts : Counts segment) (before : List Char) :
    trimRev (segment.reverse ++ before) = segment.reverse ++ before := by
  have solid : '/' ∉ segment.reverse := fun inside => counts.solid (List.mem_reverse.mp inside)
  cases reversed : segment.reverse with
  | nil => exact absurd (List.reverse_eq_nil_iff.mp reversed) counts.nonempty
  | cons last more =>
    rw [reversed] at solid
    apply trimRev.eq_3
    · intro rest same
      obtain ⟨rfl, -⟩ := List.cons.inj same
      exact solid List.mem_cons_self
    · intro rest same
      obtain ⟨rfl, behind⟩ := List.cons.inj same
      cases more with
      | nil => exact counts.notHere (List.reverse_eq_cons_iff.mp reversed)
      | cons c more =>
        obtain ⟨rfl, -⟩ := List.cons.inj behind
        simp at solid

theorem ne_of_mem_reverse {text : List Char} {mark : Char} (absent : mark ∉ text) :
    ∀ c ∈ text.reverse, decide (c ≠ mark) = true := by
  intro c member
  apply decide_eq_true
  rintro rfl
  exact absent (List.mem_reverse.mp member)

private theorem leads_dropWhile (text : List Char) : Leads (text.dropWhile (· ≠ '/')).reverse := by
  cases rest : text.dropWhile (· ≠ '/') with
  | nil => exact .inl rfl
  | cons c more =>
    have slash := List.head?_dropWhile_not (· ≠ '/') text
    rw [rest] at slash
    exact .inr ⟨more.reverse, by simpa using slash⟩

namespace Parts

variable {path lead segment trail : List Char}

private theorem trimRev_reverse (parts : Parts path lead segment trail) :
    trimRev path.reverse = segment.reverse ++ lead.reverse := by
  rw [parts.joined, List.reverse_append, List.reverse_append,
    trimRev_idle parts.idle (by simp [parts.counts.nonempty]), trimRev_segment parts.counts]

theorem splitLast_eq (parts : Parts path lead segment trail) :
    splitLast path = (lead.reverse, segment) := by
  have inside := ne_of_mem_reverse parts.counts.solid
  rw [splitLast, parts.trimRev_reverse, List.dropWhile_append_of_pos inside,
    List.takeWhile_append_of_pos inside]
  rcases parts.leads with none | ⟨front, some⟩
  · simp [none]
  · simp [some]

/-- The segment is the name of the path, unless it leads upwards. -/
theorem fileName?_eq (parts : Parts path lead segment trail) :
    fileName? path = if segment = ['.', '.'] then none else some segment := by
  rw [fileName?, parts.splitLast_eq]
  by_cases up : segment = ['.', '.']
  · simp [up, isName]
  · simp [up, isName, parts.counts.nonempty, parts.counts.notHere]

theorem directoryRev_eq (parts : Parts path lead segment trail) :
    directoryRev path = trimRev lead.reverse := by
  rw [directoryRev, parts.splitLast_eq]

end Parts

/-- Every path with a name can be taken apart at its name. -/
theorem exists_parts {path name : List Char} (named : fileName? path = some name) :
    name ≠ ['.', '.'] ∧ ∃ lead trail, Parts path lead name trail := by
  obtain ⟨valid, rfl⟩ : isName (splitLast path).2 ∧ (splitLast path).2 = name := by
    simpa [fileName?] using named
  simp only [isName, Bool.and_eq_true, bne_iff_ne] at valid
  obtain ⟨⟨nonempty, notHere⟩, notUp⟩ := valid
  refine ⟨notUp, ?_⟩
  rcases trimRev_cases path.reverse with root | ⟨trail, idle, same⟩
  · simp [splitLast, root] at nonempty
  · refine ⟨(splitLast path).1.reverse, trail, ?_, leads_dropWhile _, ⟨nonempty, notHere, ?_⟩, idle⟩
    · have divided : (splitLast path).1.reverse ++ (splitLast path).2 =
          (trimRev path.reverse).reverse := by
        rw [splitLast, ← List.reverse_append, List.takeWhile_append_dropWhile]
      rw [divided, ← trail.reverse_reverse, ← List.reverse_append, ← same, List.reverse_reverse]
    · intro slash
      have inside : '/' ∈ (trimRev path.reverse).takeWhile (· ≠ '/') := List.mem_reverse.mp slash
      simpa using List.all_eq_true.mp List.all_takeWhile '/' inside

end Offload.Path
