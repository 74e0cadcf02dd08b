import Arith64.Command.Workspace
import Arith64.Proofs.Reading
import Mathlib.Tactic.SplitIfs

/-!
# Reading back what was written

Writing a file changes no directory, so the path that a text was written to
leads to that text.
-/

namespace Arith64.Workspace

variable {w w' : Workspace} {path name : String} {names front : List String}
  {place next parent : Place} {here there : Located}

/-! ## One name -/

theorem at?_eq_directory_iff :
    w.at? place = .directory next ↔ place ∈ w.directories ∧ place = next := by
  unfold at?
  split
  · simp [*]
  · split <;> simp [*]

theorem at?_of_ne_directory (hnext : ∀ d, w.at? place ≠ .directory d) :
    place ∉ w.directories ∧
      ((∃ text, w.at? place = .file place text) ∨ w.at? place = .missing place) := by
  have hfile : place ∉ w.directories :=
    fun h => hnext place (at?_eq_directory_iff.mpr ⟨h, rfl⟩)
  refine ⟨hfile, ?_⟩
  unfold at?
  rw [if_neg hfile]
  cases w.files.lookup place with
  | some text => exact .inl ⟨text, rfl⟩
  | none => exact .inr rfl

theorem enter_directory (hdirs : w'.directories = w.directories)
    (h : w.enter place name = .ok (.directory next)) :
    w'.enter place name = .ok (.directory next) := by
  unfold enter at *
  split_ifs at * with hstays hup hlong
  · exact h
  · exact h
  · rw [Except.ok.injEq, at?_eq_directory_iff] at *
    rw [hdirs]
    exact h

theorem enter_at (h : w.enter place name = .ok here) (hnext : ∀ d, here ≠ .directory d) :
    w.at? (place ++ [name]) = here ∧
      ∀ v : Workspace, v.enter place name = .ok (v.at? (place ++ [name])) := by
  unfold enter at *
  split_ifs at * with hstays hup hlong
  · cases h
    exact absurd rfl (hnext _)
  · cases h
    exact absurd rfl (hnext _)
  · cases h
    exact ⟨rfl, fun v => rfl⟩

/-! ## Rows of names -/

theorem follow_cons : w.follow here (name :: names) = (do
    let place ← here.asDirectory
    let next ← w.enter place name
    w.follow next names) := by
  rw [follow]
  cases here.asDirectory with
  | error e => rfl
  | ok place =>
    dsimp only
    rw [ok_bind]
    cases w.enter place name <;> rfl

theorem follow_append (h : w.follow here front = .ok there) :
    w.follow here (front ++ names) = w.follow there names := by
  induction front generalizing here with
  | nil =>
    rw [follow, Except.ok.injEq] at h
    rw [List.nil_append, h]
  | cons name front ih =>
    rw [follow_cons] at h
    obtain ⟨place, hplace, h⟩ := bind_eq_ok_iff.mp h
    obtain ⟨next, hnext, h⟩ := bind_eq_ok_iff.mp h
    rw [List.cons_append, follow_cons, hplace, ok_bind, hnext, ok_bind, ih h]

theorem asDirectory_eq_ok_iff : here.asDirectory = .ok place ↔ here = .directory place := by
  cases here <;> simp [Located.asDirectory]

theorem exists_directory_of_follow (h : w.follow here names = .ok (.directory next)) :
    ∃ d, here = .directory d := by
  cases names with
  | nil =>
    rw [follow, Except.ok.injEq] at h
    exact ⟨next, h⟩
  | cons name names =>
    rw [follow_cons] at h
    obtain ⟨d, hd, -⟩ := bind_eq_ok_iff.mp h
    exact ⟨d, asDirectory_eq_ok_iff.mp hd⟩

/-- Only a directory can be gone on from, so the files on the way to one do not matter. -/
theorem follow_directory (hdirs : w'.directories = w.directories)
    (h : w.follow here names = .ok (.directory next)) :
    w'.follow here names = .ok (.directory next) := by
  induction names generalizing here with
  | nil =>
    rw [follow] at *
    exact h
  | cons name names ih =>
    rw [follow_cons] at *
    obtain ⟨place, hplace, h⟩ := bind_eq_ok_iff.mp h
    obtain ⟨there, hthere, h⟩ := bind_eq_ok_iff.mp h
    obtain ⟨d, rfl⟩ := exists_directory_of_follow h
    rw [hplace, ok_bind, enter_directory hdirs hthere, ok_bind, ih h]

/-! ## Writing -/

theorem dropEnd_eq_self {holds : String → Bool}
    (h : names.length ≤ (dropEnd holds names).length) : dropEnd holds names = names := by
  unfold dropEnd at *
  have hlength : names.reverse.length ≤ (names.reverse.dropWhile holds).length := by
    simpa using h
  rw [(List.dropWhile_suffix holds).eq_of_length_le hlength, List.reverse_reverse]

theorem exists_of_target (h : w.target path = .ok place) :
    ∃ front name parent, pathNames? path = .ok (front ++ [name]) ∧
      w.follow (.directory (start (front ++ [name]))) front = .ok (.directory parent) ∧
      place ∉ w.directories ∧ ∀ v : Workspace, v.enter parent name = .ok (v.at? place) := by
  unfold target at h
  obtain ⟨names, hnames, hfollow⟩ := bind_eq_ok_iff.mp h
  obtain ⟨here, hhere, hparents⟩ := bind_eq_ok_iff.mp hfollow
  obtain ⟨parent, hparent, hlast⟩ := bind_eq_ok_iff.mp hparents
  split at hlast
  case h_1 => cases hlast
  case h_2 name hname =>
    split_ifs at hlast with hlength
    rw [dropEnd_eq_self (Nat.not_lt.mp hlength)] at hhere hname
    obtain ⟨front, rfl⟩ := List.getLast?_eq_some_iff.mp hname
    rw [List.dropLast_concat, asDirectory_eq_ok_iff.mp hparent] at hhere
    obtain ⟨there, hthere, hend⟩ := bind_eq_ok_iff.mp hlast
    have hnext : ∀ d, there ≠ .directory d := by
      rintro d rfl
      cases hend
    obtain ⟨rfl, henter⟩ := enter_at hthere hnext
    obtain ⟨hfile, hat⟩ := at?_of_ne_directory hnext
    have hplace : place = parent ++ [name] := by
      rcases hat with ⟨text, hat⟩ | hat
      · rw [hat] at hend
        cases hend
        rfl
      · rw [hat] at hend
        cases hend
        rfl
    rw [← hplace] at hfile henter
    exact ⟨front, name, parent, hnames, hhere, hfile, henter⟩

theorem locate_of_target (h : w.target path = .ok place) (hdirs : w'.directories = w.directories) :
    w'.locate path = .ok (w'.at? place) := by
  obtain ⟨front, name, parent, hnames, hparent, -, henter⟩ := exists_of_target h
  unfold locate
  rw [hnames, ok_bind, follow_append (follow_directory hdirs hparent), follow_cons]
  rw [Located.asDirectory, ok_bind, henter, ok_bind, follow]

theorem writeText_eq {text : String} (h : w.target path = .ok place) :
    w.writeText path text =
      (.ok (), { w with files := (place, text) :: w.files.filter (·.1 ≠ place) }) := by
  rw [writeText, h]

theorem openText_writeText {text : String} (h : w.target path = .ok place) :
    (w.writeText path text).2.openText path = .ok (some text) := by
  obtain ⟨-, -, -, -, -, hfile, -⟩ := exists_of_target h
  have hdirs : (w.writeText path text).2.directories = w.directories := by rw [writeText_eq h]
  have hfiles : (w.writeText path text).2.files.lookup place = some text := by
    simp [writeText_eq h]
  rw [← hdirs] at hfile
  unfold openText
  rw [locate_of_target h hdirs, at?, if_neg hfile, hfiles]

end Arith64.Workspace
