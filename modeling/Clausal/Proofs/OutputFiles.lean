import Clausal.Command.Run
import Clausal.Proofs.ProgramLines
import Mathlib.Data.List.TakeWhile

/-!
# Where output files go

Output files are named after the theory, or else after the input. Whatever these texts are, the name is
a single component of a path that does not refer to a directory, so that a file of this name lies
directly in the output directory.

Outside of the program a path ends at its first zero byte, and what is left of a name may well refer to
the output directory or to the one above it. Such a path leads to a directory that was on the way to
the output directory, and a directory is never written to. A run therefore makes directories on that
way, writes files directly in the output directory, and leaves everything else as it was.

## Main results

`Path.outputStem_confined`: the name is that of a file, and files of this name lie in the output
directory.

`Options.run_outputTo`: what a run on any tree of files changes.
-/

namespace Clausal

/-! ### Ends of texts -/

namespace Text

/-- A byte that occurs in a text has a last occurrence. -/
theorem exists_last {b : UInt8} {t : Text} (occurs : b ∈ t) :
    ∃ before after, t = before ++ b :: after ∧ b ∉ after := by
  obtain ⟨after, before, reversed, absent⟩ :=
    List.eq_append_cons_of_mem (List.mem_reverse.mpr occurs)
  refine ⟨before.reverse, after.reverse, ?_, by simpa using absent⟩
  rw [← List.reverse_reverse t, reversed]
  simp

theorem stopsAt_self (b : UInt8) (rest : Text) : StopsAt (· != b) (b :: rest) := by
  simp [StopsAt]

section Absent

variable {b : UInt8} {t : Text} (absent : b ∉ t)

include absent

theorem bne_of_mem : ∀ c ∈ t, (c != b) = true := by
  intro c member
  rw [bne_iff_ne]
  rintro rfl
  exact absent member

theorem bne_of_mem_reverse : ∀ c ∈ t.reverse, (c != b) = true :=
  fun c member => bne_of_mem absent c (List.mem_reverse.mp member)

/-- Read backwards, a text goes on up to the last occurrence of a byte. -/
theorem takeWhile_reverse_append (before : Text) :
    (before ++ b :: t).reverse.takeWhile (· != b) = t.reverse := by
  rw [List.reverse_append, List.reverse_cons, List.append_assoc, List.singleton_append]
  exact takeWhile_run _ _ _ (bne_of_mem_reverse absent) (stopsAt_self b _)

theorem dropWhile_reverse_append (before : Text) :
    (before ++ b :: t).reverse.dropWhile (· != b) = b :: before.reverse := by
  rw [List.reverse_append, List.reverse_cons, List.append_assoc, List.singleton_append]
  exact dropWhile_run _ _ _ (bne_of_mem_reverse absent) (stopsAt_self b _)

end Absent

theorem beforeNul_append_of_mem {x : Text} (zero : 0 ∈ x) (y : Text) :
    (x ++ y).beforeNul = x.beforeNul := by
  obtain ⟨before, after, rfl, absent⟩ := List.eq_append_cons_of_mem zero
  have ends (rest : Text) : beforeNul (before ++ 0 :: rest) = before :=
    takeWhile_run _ _ _ (bne_of_mem absent) (stopsAt_self 0 rest)
  rw [List.append_assoc, List.cons_append, ends, ends]

theorem beforeNul_append {x : Text} (noZero : 0 ∉ x) (y : Text) :
    (x ++ y).beforeNul = x ++ y.beforeNul :=
  List.takeWhile_append_of_pos (bne_of_mem noZero)

end Text

/-! ### Names of output files -/

namespace Path

/-- Whether a name can be that of a file in a directory. -/
@[mk_iff]
structure IsFileName (name : Text) : Prop where
  nonempty : name ≠ []
  notHere : name ≠ "."
  notAbove : name ≠ ".."
  single : separator ∉ name

instance (name : Text) : Decidable (IsFileName name) := decidable_of_iff' _ (isFileName_iff name)

/-- Whether a name is what follows the last separator of a path. -/
structure IsLast (name path : Text) : Prop where
  single : separator ∉ name
  ends : path = name ∨ ∃ directories, path = directories ++ separator :: name

/-- Whether a text is a name without its extension, which starts at the last dot. There is no extension
if that dot is the first byte, or if the name refers to a directory. -/
inductive IsStem : Text → Text → Prop where
  | dots {name : Text} (dots : name = "." ∨ name = "..") : IsStem name name
  | whole {name : Text} (noDot : ascii '.' ∉ name.tail) : IsStem name name
  | cut {stem extension : Text} (nonempty : stem ≠ []) (last : ascii '.' ∉ extension)
      (notDots : ¬ (stem ++ ascii '.' :: extension = "." ∨ stem ++ ascii '.' :: extension = "..")) :
      IsStem stem (stem ++ ascii '.' :: extension)

/-- What output files are named after: the theory, or else the input, or else neither of them. -/
inductive NamedAfter (theory input : Text) : Text → Prop where
  | theory {name : Text} (last : IsLast name theory) (usable : IsFileName name) :
      NamedAfter theory input name
  | input {name file stem : Text} (last : IsLast name theory) (unusable : ¬ IsFileName name)
      (lastInput : IsLast file input) (isStem : IsStem stem file) (usable : IsFileName stem) :
      NamedAfter theory input stem
  | neither {name file stem : Text} (last : IsLast name theory) (unusable : ¬ IsFileName name)
      (lastInput : IsLast file input) (isStem : IsStem stem file) (noStem : ¬ IsFileName stem) :
      NamedAfter theory input "theory"

/-- The last component of a path has no separator in it. -/
theorem isLast_fileName (path : Text) : IsLast (fileName path) path := by
  by_cases occurs : separator ∈ path
  · obtain ⟨directories, name, rfl, single⟩ := Text.exists_last occurs
    rw [fileName, Text.takeWhile_reverse_append single, List.reverse_reverse]
    exact ⟨single, .inr ⟨directories, rfl⟩⟩
  · rw [fileName, List.takeWhile_eq_self_iff.mpr (Text.bne_of_mem_reverse occurs),
      List.reverse_reverse]
    exact ⟨occurs, .inl rfl⟩

theorem beforeLastDot_append {extension : Text} (last : ascii '.' ∉ extension) (stem : Text) :
    beforeLastDot (stem ++ ascii '.' :: extension) = stem := by
  rw [beforeLastDot, Text.dropWhile_reverse_append last, List.drop_one, List.tail_cons,
    List.reverse_reverse]

theorem beforeLastDot_eq_nil {name : Text} (noDot : ascii '.' ∉ name) : beforeLastDot name = [] := by
  rw [beforeLastDot, List.dropWhile_eq_nil_iff.mpr (Text.bne_of_mem_reverse noDot)]
  rfl

theorem isDots_iff (name : Text) : isDots name = true ↔ name = "." ∨ name = ".." := by
  simp [isDots]

theorem isStem_fileStem (path : Text) : IsStem (fileStem path) (fileName path) := by
  unfold fileStem
  generalize fileName path = name
  dsimp only
  by_cases dots : isDots name = true
  · rw [dots, Bool.true_or, if_pos rfl]
    exact .dots ((isDots_iff name).mp dots)
  have notDots := mt (isDots_iff name).mpr dots
  rw [Bool.eq_false_iff.mpr dots, Bool.false_or]
  by_cases occurs : ascii '.' ∈ name
  · obtain ⟨stem, extension, rfl, last⟩ := Text.exists_last occurs
    rw [beforeLastDot_append last]
    cases stem with
    | nil => exact .whole last
    | cons b stem => exact .cut (List.cons_ne_nil b stem) last notDots
  · rw [beforeLastDot_eq_nil occurs]
    exact .whole (mt List.mem_of_mem_tail occurs)

/-- A stem of a single component is a single component. -/
theorem IsStem.single {stem name : Text} (isStem : IsStem stem name) (single : separator ∉ name) :
    separator ∉ stem := by
  cases isStem with
  | dots | whole => exact single
  | cut => exact fun member => single (List.mem_append_left _ member)

theorem isUsable_iff {name : Text} (single : separator ∉ name) :
    isUsable name = true ↔ IsFileName name := by
  simp [isUsable, isDots, isFileName_iff, single]

/-- Output files are named after the theory, or else after the input, or else after neither. -/
theorem namedAfter_outputStem (theory input : Text) :
    NamedAfter theory input (outputStem theory input) := by
  have last := isLast_fileName theory
  have lastInput := isLast_fileName input
  have isStem := isStem_fileStem input
  have theoryIff := isUsable_iff last.single
  have inputIff := isUsable_iff (isStem.single lastInput.single)
  unfold outputStem
  by_cases usable : isUsable (fileName theory) = true
  · rw [List.find?_cons_of_pos usable]
    exact .theory last (theoryIff.mp usable)
  rw [List.find?_cons_of_neg usable]
  by_cases usableStem : isUsable (fileStem input) = true
  · rw [List.find?_cons_of_pos usableStem]
    exact .input last (mt theoryIff.mpr usable) lastInput isStem (inputIff.mp usableStem)
  · rw [List.find?_cons_of_neg usableStem]
    exact .neither last (mt theoryIff.mpr usable) lastInput isStem (mt inputIff.mpr usableStem)

/-- Output files are named after something that can be the name of a file. -/
theorem NamedAfter.isFileName {theory input stem : Text} (named : NamedAfter theory input stem) :
    IsFileName stem := by
  cases named with
  | theory _ usable => exact usable
  | input _ _ _ _ usable => exact usable
  | neither => decide

/-- A suffix keeps a name from being a reference to a directory. -/
theorem IsFileName.append_suffix {stem : Text} (usable : IsFileName stem) (format : Format) :
    IsFileName (stem ++ format.suffix) := by
  have long : 2 ≤ format.suffix.length ∧ separator ∉ format.suffix := by
    cases format <;> decide
  have first := List.length_pos_iff.mpr usable.nonempty
  have other (t : Text) (short : t.length ≤ 2) : stem ++ format.suffix ≠ t := by
    rintro rfl
    rw [List.length_append] at short
    omega
  exact ⟨other [] (by decide), other "." (by decide), other ".." (by decide),
    List.not_mem_append usable.single long.2⟩

/-- A path ends inside the directory's part of it, or else the name is cut. -/
theorem beforeNul_within (directory name : Text) :
    (within directory name).beforeNul = directory.beforeNul ∨
      directory.beforeNul = directory ∧
        (within directory name).beforeNul = within directory name.beforeNul := by
  by_cases zero : 0 ∈ directory
  · left
    unfold within
    split
    · exact Text.beforeNul_append_of_mem zero name
    · rw [List.append_assoc]
      exact Text.beforeNul_append_of_mem zero _
  · right
    have whole : directory.beforeNul = directory := by
      simpa [Text.beforeNul] using Text.beforeNul_append zero []
    have slash : 0 ∉ directory ++ Text.ofString "/" := List.not_mem_append zero (by decide)
    refine ⟨whole, ?_⟩
    unfold within
    split
    · exact Text.beforeNul_append zero name
    · exact Text.beforeNul_append slash name

end Path

/-! ### Places -/

namespace Place

def start (path : Text) : Place := if path.head? = some Path.separator then above else root

/-- The places on the way along a path, its start and its end included. -/
def along (path : Text) : List Place := (Text.split Path.separator path).scanl enter (start path)

/-- The place to which a path leads, provided that there are directories all the way. -/
def ofPath (path : Text) : Place := (Text.split Path.separator path).foldl enter (start path)

theorem parent_child (place : Place) (name : Text) : (place.child name).parent = place := by
  cases place with
  | inside names =>
    cases names with
    | nil => rfl
    | cons first names => exact congrArg inside List.dropLast_concat
  | outside names => simp [child, parent]

/-- A component leads nowhere, upwards or to a file or directory of its name. -/
theorem enter_cases (place : Place) {name : Text} (single : Path.separator ∉ name) :
    place.enter name = place ∨ place.enter name = place.parent ∨
      place.enter name = place.child name ∧ Path.IsFileName name := by
  unfold enter
  split
  · exact .inl rfl
  next visible =>
    split
    · exact .inr (.inl rfl)
    next notAbove =>
      simp only [Bool.or_eq_true, List.isEmpty_iff, decide_eq_true_eq, not_or] at visible
      exact .inr (.inr ⟨rfl, visible.1, visible.2, notAbove, single⟩)

/-- A proper name leads one step down. -/
theorem enter_eq_child (place : Place) {name : Text} (usable : Path.IsFileName name) :
    place.enter name = place.child name := by
  simp [enter, usable.nonempty, usable.notHere, usable.notAbove]

/-- What is within a directory is one step behind it. -/
theorem ofPath_within {directory name : Text} (given : directory ≠ [])
    (single : Path.separator ∉ name) :
    ofPath (Path.within directory name) = (ofPath directory).enter name := by
  have component := Text.split_eq_singleton Path.separator name single
  unfold Path.within
  split
  next ends =>
    -- The last component of the directory's path is empty and leads nowhere.
    obtain ⟨directories, rfl⟩ := List.getLast?_eq_some_iff.mp ends
    have sameStart : start (directories ++ [Path.separator] ++ name) =
        start (directories ++ [Path.separator]) := by
      cases directories <;> rfl
    rw [ofPath, ofPath, sameStart, List.append_assoc, List.singleton_append, Text.split_delimiter,
      Text.split_delimiter, component]
    simp [Text.split, enter]
  next =>
    have slash : Text.ofString "/" = [Path.separator] := by decide
    have sameStart : start (directory ++ Path.separator :: name) = start directory := by
      cases directory with
      | nil => exact absurd rfl given
      | cons => rfl
    rw [slash, List.append_assoc, List.singleton_append, ofPath, ofPath, sameStart,
      Text.split_delimiter, component]
    simp

end Place

/-! ### Trees -/

namespace FileTree

theorem lookup_entry (place other : Place) (e : FileEntry) (entries : List (Place × FileEntry)) :
    ((place, e) :: entries).lookup other =
      if other = place then some e else entries.lookup other := by
  by_cases same : other = place
  · simp [same]
  · rw [List.lookup_cons, beq_eq_false_iff_ne.mpr same, if_neg same]

theorem lookup_setEntry (place other : Place) (e : FileEntry) (entries : List (Place × FileEntry)) :
    (setEntry place e entries).lookup other =
      if other = place then some e else entries.lookup other := by
  induction entries with
  | nil => exact lookup_entry place other e []
  | cons entry entries ih =>
    obtain ⟨first, old⟩ := entry
    rw [setEntry]
    by_cases here : first = place
    · subst here
      rw [if_pos rfl, lookup_entry, lookup_entry]
      split <;> rfl
    · rw [if_neg here, lookup_entry, lookup_entry, ih]
      by_cases same : other = first
      · rw [if_pos same, if_neg (same ▸ here), if_pos same]
      · rw [if_neg same, if_neg same]

variable (t : FileTree) {place other : Place}

theorem lookup?_root : t.lookup? .root = some .directory := by
  rw [lookup?, if_pos rfl]

theorem lookup?_set (e : FileEntry) (notRoot : place ≠ .root) :
    (t.set place e).lookup? place = some e := by
  rw [lookup?, if_neg notRoot, set, lookup_setEntry, if_pos rfl]
  rfl

/-- Setting an entry changes nothing elsewhere. -/
theorem lookup?_set_of_ne (e : FileEntry) (apart : other ≠ place) :
    (t.set place e).lookup? other = t.lookup? other := by
  rw [lookup?, lookup?, set, lookup_setEntry, if_neg apart]

variable {t}

theorem ne_root (other : t.lookup? place ≠ some .directory) : place ≠ .root := by
  rintro rfl
  exact other t.lookup?_root

/-- Whether there are directories at a place and everywhere above it. -/
def Stands (t : FileTree) (place : Place) : Prop :=
  ∀ n, t.lookup? (Place.parent^[n] place) = some .directory

theorem Stands.parent (stands : t.Stands place) : t.Stands place.parent :=
  fun n => stands (n + 1)

theorem Stands.enter (stands : t.Stands place) (name : Text)
    (isDirectory : t.lookup? (place.enter name) = some .directory) : t.Stands (place.enter name) := by
  unfold Place.enter at isDirectory ⊢
  split_ifs at isDirectory ⊢
  · exact stands
  · exact stands.parent
  · intro n
    cases n with
    | zero => exact isDirectory
    | succ n =>
      rw [Function.iterate_succ_apply, Place.parent_child]
      exact stands n

theorem stands_start (above : t.lookup? .above = some .directory) (path : Text) :
    t.Stands (Place.start path) := by
  have top : t.Stands .above := by
    intro n
    rw [Function.iterate_fixed (show Place.above.parent = .above from rfl)]
    exact above
  unfold Place.start
  split
  · exact top
  · intro n
    cases n with
    | zero => exact t.lookup?_root
    | succ n => exact top n

end FileTree

/-! ### Changes -/

/-- What output to a directory may do at a place: nothing, or make a directory on the way where there
was nothing, or write a file directly in the directory. -/
inductive Change (directory : Text) (named : Text → Prop) (place : Place) :
    Option FileEntry → Option FileEntry → Prop where
  | nothing {e : Option FileEntry} : Change directory named place e e
  | made (onTheWay : place ∈ Place.along directory.beforeNul) :
      Change directory named place none (some .directory)
  | written {old : Option FileEntry} {content name : Text} (notDirectory : old ≠ some .directory)
      (given : directory ≠ []) (isNamed : named name) (usable : Path.IsFileName name)
      (inside : place = (Place.ofPath directory.beforeNul).child name) :
      Change directory named place old (some (.file content))

namespace Change

variable {directory : Text} {named : Text → Prop} {place : Place}
  {first second third : Option FileEntry}

/-- A directory stays one. -/
theorem directory_stays (change : Change directory named place (some .directory) second) :
    second = some .directory := by
  cases change with
  | nothing => rfl
  | written notDirectory => exact absurd rfl notDirectory

/-- Two changes of output amount to one. -/
theorem trans (one : Change directory named place first second)
    (two : Change directory named place second third) : Change directory named place first third := by
  cases two with
  | nothing => exact one
  | made onTheWay =>
    cases one with
    | nothing => exact .made onTheWay
  | written notDirectory given isNamed usable inside =>
    refine .written ?_ given isNamed usable inside
    rintro rfl
    exact notDirectory one.directory_stays

end Change

namespace FileTree

/-- Whether output to a directory can turn one tree into another. -/
def OutputTo (directory : Text) (named : Text → Prop) (before after : FileTree) : Prop :=
  ∀ place, Change directory named place (before.lookup? place) (after.lookup? place)

section OutputTo

variable {directory : Text} {named : Text → Prop} {t u v : FileTree}

theorem OutputTo.refl (t : FileTree) : t.OutputTo directory named t := fun _ => .nothing

theorem OutputTo.trans (one : t.OutputTo directory named u) (two : u.OutputTo directory named v) :
    t.OutputTo directory named v := fun place => (one place).trans (two place)

/-- Output takes no directory away. -/
theorem OutputTo.stands (output : t.OutputTo directory named u) {place : Place}
    (stands : t.Stands place) : u.Stands place := by
  intro n
  have change := output (Place.parent^[n] place)
  rw [stands n] at change
  exact change.directory_stays

/-- An entry that is set is the only change. -/
theorem outputTo_set {place : Place} {e : FileEntry} (free : t.lookup? place ≠ some .directory)
    (change : Change directory named place (t.lookup? place) (some e)) :
    t.OutputTo directory named (t.set place e) := by
  intro other
  by_cases same : other = place
  · rw [same, t.lookup?_set e (ne_root free)]
    exact change
  · rw [t.lookup?_set_of_ne e same]
    exact .nothing

/-- Making directories along the way leaves directories at its end and above. -/
theorem makeFrom_outputTo {place : Place} {names : List Text} (stands : t.Stands place)
    (onTheWay : ∀ passed ∈ names.scanl Place.enter place, passed ∈ Place.along directory.beforeNul)
    (made : t.makeFrom place names = some u) :
    t.OutputTo directory named u ∧ u.Stands (names.foldl Place.enter place) := by
  induction names generalizing t place with
  | nil =>
    cases made
    exact ⟨.refl _, stands⟩
  | cons name names ih =>
    rw [List.scanl_cons, List.forall_mem_cons] at onTheWay
    unfold makeFrom at made
    split at made
    · cases made
    split at made
    next isDirectory => exact ih (stands.enter name isDirectory) onTheWay.2 made
    next => cases made
    next nothing =>
      have free : t.lookup? (place.enter name) ≠ some .directory := by simp [nothing]
      have here : place.enter name ∈ Place.along directory.beforeNul := by
        refine onTheWay.2 _ ?_
        cases names <;> simp
      have step : t.OutputTo directory named (t.set (place.enter name) .directory) :=
        outputTo_set free (nothing ▸ .made here)
      obtain ⟨output, ends⟩ := ih ((step.stands stands).enter name (t.lookup?_set _ (ne_root free)))
        onTheWay.2 made
      exact ⟨step.trans output, ends⟩

theorem route?_eq {path : Text} {start : Place} {names : List Text}
    (found : route? path = some (start, names)) :
    start = Place.start path.beforeNul ∧ names = Text.split Path.separator path.beforeNul := by
  unfold route? at found
  dsimp only at found
  split at found
  · cases found
  · cases found
    exact ⟨rfl, rfl⟩

/-- Making the output directory makes only directories on the way to it. -/
theorem ensureDirectory_outputTo (above : t.lookup? .above = some .directory)
    (made : t.ensureDirectory directory = some u) :
    t.OutputTo directory named u ∧ u.Stands (Place.ofPath directory.beforeNul) := by
  unfold ensureDirectory at made
  obtain ⟨⟨start, names⟩, found, made⟩ := Option.bind_eq_some_iff.mp made
  obtain ⟨rfl, rfl⟩ := route?_eq found
  dsimp only at made
  split at made
  · exact makeFrom_outputTo (stands_start above _) (fun _ member => member) made
  · cases made

theorem follow_eq {place other : Place} {names : List Text}
    (found : t.follow place names = some other) : other = names.foldl Place.enter place := by
  induction names generalizing place with
  | nil => exact (Option.some.inj found).symm
  | cons name names ih =>
    rw [follow] at found
    split at found
    · exact ih found
    · cases found

theorem place?_eq {path : Text} {place : Place} (found : t.place? path = some place) :
    place = Place.ofPath path.beforeNul := by
  unfold place? at found
  obtain ⟨⟨start, names⟩, route, found⟩ := Option.bind_eq_some_iff.mp found
  obtain ⟨rfl, rfl⟩ := route?_eq route
  exact follow_eq found

/-- A file is written directly in the directory or not at all. -/
theorem store_outputTo {name content : Text} (given : directory ≠ [])
    (single : Path.separator ∉ name) (isNamed : named name.beforeNul)
    (stands : t.Stands (Place.ofPath directory.beforeNul))
    (stored : t.store (Path.within directory name) content = some u) :
    t.OutputTo directory named u := by
  obtain ⟨place, found, stored⟩ := Option.bind_eq_some_iff.mp stored
  split at stored
  · cases stored
  next free =>
    cases stored
    refine outputTo_set free ?_
    obtain rfl := place?_eq found
    have singleName : Path.separator ∉ name.beforeNul :=
      mt (List.takeWhile_sublist _).mem single
    rcases Path.beforeNul_within directory name with ends | ⟨whole, cut⟩
    · rw [ends] at free
      exact absurd (stands 0) free
    -- The name may have been cut down to a reference to a directory, which is on the way.
    rw [whole] at stands
    rw [cut, Place.ofPath_within given singleName] at free ⊢
    rcases Place.enter_cases (Place.ofPath directory) singleName with here | up | ⟨down, usable⟩
    · rw [here] at free
      exact absurd (stands 0) free
    · rw [up] at free
      exact absurd (stands 1) free
    · exact .written free given isNamed usable (by rw [down, whole])

end OutputTo

end FileTree

/-! ### Runs -/

namespace FileTree

/-- A change that is refused leaves the tree as it is. -/
theorem attempt_cases (change : FileTree → Option FileTree) (tree : FileTree) :
    (∃ after, change tree = some after ∧ attempt change tree = (true, after)) ∨
      attempt change tree = (false, tree) := by
  unfold attempt
  split
  next after changed => exact .inl ⟨after, changed, rfl⟩
  next => exact .inr rfl

theorem bind_run {α β : Type} (x : StateM FileTree α) (f : α → StateM FileTree β) (tree : FileTree) :
    (x >>= f) tree = f (x tree).1 (x tree).2 := rfl

end FileTree

namespace Options

variable (o : Options) {named : Text → Prop} {tree : FileTree}

/-- A text is stored in the output directory or not at all. -/
theorem storeText_outputTo {stem : Text} {format : Format} (given : o.outputDir ≠ [])
    (usable : Path.IsFileName stem) (isNamed : named (stem ++ format.suffix).beforeNul)
    (stands : tree.Stands (Place.ofPath o.outputDir.beforeNul)) (c : Compiled) :
    tree.OutputTo o.outputDir named (o.storeText (m := StateM FileTree) stem format c tree).2 := by
  have left : (o.storeText (m := StateM FileTree) stem format c tree).2 =
      (FileTree.attempt (fun t => t.store (Path.within o.outputDir (stem ++ format.suffix)) c.text)
        tree).2 := by
    rw [storeText, FileTree.bind_run]
    split <;> rfl
  rw [left]
  rcases FileTree.attempt_cases _ tree with ⟨after, stored, result⟩ | result
  · rw [result]
    exact FileTree.store_outputTo given (usable.append_suffix format).single isNamed stands stored
  · rw [result]
    exact .refl tree

/-- Whether the output directory is ready for files, if there is one. -/
def Ready (tree : FileTree) : Prop :=
  o.outputDir ≠ [] → tree.Stands (Place.ofPath o.outputDir.beforeNul)

theorem runTarget_outputTo {stem : Text} {format : Format} (usable : Path.IsFileName stem)
    (isNamed : named (stem ++ format.suffix).beforeNul) (ready : o.Ready tree) (t : Theory) :
    tree.OutputTo o.outputDir named (o.runTarget (m := StateM FileTree) t stem format tree).2 := by
  unfold runTarget
  cases format.compile o.choices t with
  | error fault => exact .refl tree
  | ok c =>
    show tree.OutputTo o.outputDir named (o.deliver (m := StateM FileTree) stem format c tree).2
    unfold deliver
    split
    · exact .refl tree
    next given =>
      rw [List.isEmpty_iff] at given
      exact o.storeText_outputTo given usable isNamed (ready given) c

theorem runTargets_outputTo {stem : Text} {formats : List Format} (usable : Path.IsFileName stem)
    (isNamed : ∀ format ∈ formats, named (stem ++ format.suffix).beforeNul) (ready : o.Ready tree)
    (t : Theory) :
    tree.OutputTo o.outputDir named (o.runTargets (m := StateM FileTree) t stem formats tree).2 := by
  induction formats generalizing tree with
  | nil => exact .refl tree
  | cons format formats ih =>
    rw [List.forall_mem_cons] at isNamed
    -- The other targets start from the tree that the first one leaves.
    have first := o.runTarget_outputTo usable isNamed.1 ready t
    exact first.trans (ih isNamed.2 fun given => first.stands (ready given))

/-- The output directory is made before anything is stored. -/
theorem openOutput_outputTo (named : Text → Prop) (above : tree.lookup? .above = some .directory) :
    tree.OutputTo o.outputDir named (o.openOutput (m := StateM FileTree) tree).2 ∧
      ((o.openOutput (m := StateM FileTree) tree).1 = true →
        o.Ready (o.openOutput (m := StateM FileTree) tree).2) := by
  by_cases given : o.outputDir = []
  · have opens : o.openOutput (m := StateM FileTree) tree = (true, tree) := by
      rw [openOutput, given]
      rfl
    rw [opens]
    exact ⟨.refl tree, fun _ other => absurd given other⟩
  · have opens : o.openOutput (m := StateM FileTree) tree =
        FileTree.attempt (·.ensureDirectory o.outputDir) tree := by
      rw [openOutput, if_neg (mt List.isEmpty_iff.mp given)]
      rfl
    rw [opens]
    rcases FileTree.attempt_cases (·.ensureDirectory o.outputDir) tree with
      ⟨after, made, result⟩ | result
    · obtain ⟨output, stands⟩ := FileTree.ensureDirectory_outputTo above made
      rw [result]
      exact ⟨output, fun _ _ => stands⟩
    · rw [result]
      exact ⟨.refl tree, fun failed => by cases failed⟩

theorem withParents_name (t : Theory) : (o.withParents t).2.name = t.name := by
  unfold withParents
  dsimp only
  split <;> rfl

theorem prepare_name (t : Theory) : (o.prepare t).2.name = t.name := by
  unfold prepare
  dsimp only
  split
  · exact o.withParents_name t
  · rfl

/-- The names of the files that a run can write: they are cut at a zero byte. -/
def Writes (tree : FileTree) (name : Text) : Prop :=
  ∃ document theory format, tree.content? o.input = some document ∧
    theoryOf o.input document = .ok theory ∧ format ∈ o.targets ∧
    name = (Path.outputStem theory.name o.input ++ format.suffix).beforeNul

/-- A run on a theory changes nothing outside of the output directory. -/
theorem runTheory_outputTo (above : tree.lookup? .above = some .directory) (t : Theory)
    (isNamed : ∀ format ∈ o.targets,
      named (Path.outputStem t.name o.input ++ format.suffix).beforeNul) :
    tree.OutputTo o.outputDir named (o.runTheory (m := StateM FileTree) t tree).2 := by
  obtain ⟨opened, ready⟩ := o.openOutput_outputTo named above
  have usable := (Path.namedAfter_outputStem t.name o.input).isFileName
  rw [← o.prepare_name t] at isNamed usable
  unfold runTheory
  dsimp only
  rw [FileTree.bind_run]
  split
  next made => exact opened.trans (o.runTargets_outputTo usable isNamed (ready made) _)
  next => exact opened

/-- A run on any tree of files, with any options, makes directories on the way to the output
directory, writes files directly in it that are named after the theory it reads, and changes nothing
else. There has to be a directory above the tree, as a path may lead there. -/
theorem run_outputTo (above : tree.lookup? .above = some .directory) :
    tree.OutputTo o.outputDir (o.Writes tree) (o.run (m := StateM FileTree) tree).2 := by
  unfold run
  split
  · exact .refl tree
  have reads : Files.content? (m := StateM FileTree) o.input tree = (tree.content? o.input, tree) := rfl
  rw [FileTree.bind_run, reads]
  cases content : tree.content? o.input with
  | none => exact .refl tree
  | some document =>
    dsimp only
    cases read : theoryOf o.input document with
    | error message => exact .refl tree
    | ok t =>
      refine o.runTheory_outputTo above t fun format target => ?_
      exact ⟨document, t, format, content, read, target, rfl⟩

/-- A theory that is named after a file outside of the tree. -/
private def hosts : FileTree :=
  FileTree.empty.add "in.sexpr" "(Theory (name \"../../etc/hosts\") (ground_terms (Term \"dry\")))"

private def hostsToProlog : Options :=
  { Options.initial with input := "in.sexpr", targets := [.prolog], outputDir := "out/../out" }

example : (hostsToProlog.run (m := StateM FileTree) hosts).2.lookup? (.inside ["out", "hosts.pl"]) =
    some (.file "%% Facts\n\ndry.\n") :=
  rfl

end Options

/-! ### The output directory -/

/-- Whatever the theory and the input are called, the name of the output files is that of a file, and
the path it gives in a directory leads to a direct child of that directory. With any options, the run
on a theory of that name from that input makes directories on the way to the output directory, writes
files of these names directly in it, and changes nothing else in any tree of files. -/
theorem Path.outputStem_confined (theory input : Text) :
    let stem := outputStem theory input
    IsFileName stem ∧ NamedAfter theory input stem ∧
    (∀ (directory : Text) (format : Format), directory ≠ [] →
      Place.ofPath (within directory (stem ++ format.suffix)) =
        (Place.ofPath directory).child (stem ++ format.suffix)) ∧
    ∀ (o : Options) (t : Theory) (tree : FileTree), t.name = theory → o.input = input →
      tree.lookup? .above = some .directory →
      tree.OutputTo o.outputDir
        (fun name => ∃ format ∈ o.targets, name = (stem ++ format.suffix).beforeNul)
        (o.runTheory (m := StateM FileTree) t tree).2 := by
  intro stem
  have named := namedAfter_outputStem theory input
  refine ⟨named.isFileName, named, ?_, ?_⟩
  · intro directory format given
    have usable := named.isFileName.append_suffix format
    rw [Place.ofPath_within given usable.single, Place.enter_eq_child _ usable]
  · rintro o t tree rfl rfl above
    exact o.runTheory_outputTo above t fun format target => ⟨format, target, rfl⟩

private def dryHosts : Theory := { Theory.empty "../../etc/hosts" with facts := [.term "dry" []] }

theorem Path.outputStem_confined_hosts :
    outputStem "../../etc/hosts" "in.sexpr" = "hosts" ∧
    Place.ofPath "out/../out/hosts.pl" = (Place.ofPath "out/../out").child "hosts.pl" ∧
    Options.hosts.lookup? .above = some .directory ∧
    (Options.hostsToProlog.runTheory (m := StateM FileTree) dryHosts Options.hosts).2.lookup?
      (.inside ["out", "hosts.pl"]) = some (.file "%% Facts\n\ndry.\n") ∧
    Options.hosts.OutputTo "out/../out" (· = "hosts.pl")
      (Options.hostsToProlog.runTheory (m := StateM FileTree) dryHosts Options.hosts).2 := by
  obtain ⟨-, -, leads, stays⟩ := outputStem_confined "../../etc/hosts" "in.sexpr"
  have written := stays Options.hostsToProlog dryHosts Options.hosts rfl rfl rfl
  have only : (fun name : Text => ∃ format ∈ Options.hostsToProlog.targets,
      name = (outputStem "../../etc/hosts" "in.sexpr" ++ format.suffix).beforeNul) =
      fun name : Text => name = "hosts.pl" := by
    funext name
    refine propext ⟨?_, fun equal => ⟨.prolog, List.mem_singleton_self _, equal⟩⟩
    rintro ⟨format, target, rfl⟩
    obtain rfl := List.mem_singleton.mp target
    rfl
  rw [only] at written
  exact ⟨rfl, leads "out/../out" .prolog (by decide), rfl, rfl, written⟩

end Clausal
