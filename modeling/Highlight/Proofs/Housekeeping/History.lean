import Highlight.Proofs.Compilation.Outcome
import Highlight.Proofs.SyntaxFiles.Discard
import Highlight.Proofs.SyntaxFiles.Listing
import Highlight.Proofs.Text.Bytes

/-!
# What the list tells of a history

Schemes are compiled into an output directory and deleted from it in any order, and now and then a
compilation fails. Nothing but the last event of a name matters to what is left of it: all three
files if it was compiled, none if it was deleted (`Tells`). Each action keeps this up
(`agrees_perform`), and so does every run of actions (`agrees_run`). So the list that is told in the
end can be read off the history (`list_tells_history`).

The directory may be missing at first. Then it has to be one that is empty once it is made, which
`missing/../there` is not (`list_tells_more`).
-/

namespace Highlight.Housekeeping

open FileSystem SyntaxFiles

/-! ## Histories -/

/-- What may be done to the schemes in an output directory. -/
inductive Action where
  | compile (setup : Setup) (fresh : Compilation.Fresh) (path : Path)
  | delete (setup : Setup) (name : String)

/-- The setup an action is done with. -/
def Action.setup : Action → Setup
  | compile setup _ _ => setup
  | delete setup _ => setup

/-- What has become of a scheme. -/
inductive Event where
  | compiled (name : String)
  | deleted (name : String)
  deriving DecidableEq

/-- The scheme of an event. -/
def Event.name : Event → String
  | compiled name => name
  | deleted name => name

/--
What a compilation means for its scheme. A scheme that is faulty or cannot be loaded is no error
here, only a file or directory of syntax files that cannot be read, made or written.
-/
def ofCompilation : Except Compilation.Failure Compilation.Done × FileSystem →
    Except SyntaxFiles.Error (Option Event) × FileSystem
  | (.ok done, fs) => (.ok (some (.compiled done.name)), fs)
  | (.error (.making _ (.file p cause)), fs) => (.error (.file p cause), fs)
  | (.error _, fs) => (.ok none, fs)

/-- What a deletion means for its scheme. -/
def ofDeletion (name : String) : Except SyntaxFiles.Error String × FileSystem →
    Except SyntaxFiles.Error (Option Event) × FileSystem
  | (.ok _, fs) => (.ok (some (.deleted name)), fs)
  | (.error e, fs) => (.error e, fs)

/-- Does one thing, and tells what has become of a scheme by it. -/
def perform (fs : FileSystem) : Action → Except SyntaxFiles.Error (Option Event) × FileSystem
  | .compile setup fresh path => ofCompilation (Compilation.compile fs setup fresh path)
  | .delete setup name => ofDeletion name (delete fs setup name)

/-- Goes on with the rest of a history unless there was an error. -/
def goOn (rest : FileSystem → Except SyntaxFiles.Error (List Event) × FileSystem) :
    Except SyntaxFiles.Error (Option Event) × FileSystem →
      Except SyntaxFiles.Error (List Event) × FileSystem
  | (.error e, fs) => (.error e, fs)
  | (.ok event, fs) => ((rest fs).1.map (event.toList ++ ·), (rest fs).2)

/-- Does one thing after the other, and tells the history. -/
def run : List Action → FileSystem → Except SyntaxFiles.Error (List Event) × FileSystem
  | [], fs => (.ok [], fs)
  | action :: actions, fs => goOn (run actions) (perform fs action)

/-- The last event of a scheme, if it has any. -/
def lastOf (name : String) (history : List Event) : Option Event :=
  history.reverse.find? (·.name = name)

/-- A name without dots and slashes. -/
structure Plain (name : String) : Prop where
  dot : '.' ∉ name.toList
  slash : '/' ∉ name.toList

variable {fs fs' : FileSystem} {directory : Path} {d : Location} {name : String}
  {action : Action} {event : Option Event} {start : List String} {history : List Event}

theorem lastOf_append (name : String) (history : List Event) (e : Event) :
    lastOf name (history ++ [e]) = if e.name = name then some e else lastOf name history := by
  rw [lastOf, List.reverse_append, List.reverse_singleton, List.singleton_append, List.find?_cons]
  by_cases h : e.name = name
  · simp [h]
  · simp [h, lastOf]

theorem mem_of_lastOf {e : Event} (h : lastOf name history = some e) :
    e ∈ history ∧ e.name = name := by
  refine ⟨List.mem_reverse.mp (List.mem_of_find?_eq_some h), ?_⟩
  simpa using List.find?_some h

/-- What is done without an error. -/
theorem perform_ok (h : perform fs action = (.ok event, fs')) :
    (event = none ∧ fs' = fs) ∨
      (∃ name, ∃ files : SyntaxFiles, ∃ written, event = some (.compiled name) ∧ Plain name ∧
        files.store fs action.setup.outputDirectory name = (.ok written, fs')) ∨
      ∃ name removed, event = some (.deleted name) ∧ action = .delete action.setup name ∧
        discard fs action.setup.outputDirectory name = (.ok removed, fs') := by
  cases action with
  | compile setup fresh path =>
    -- a compilation that fails is no event, if it has stored nothing
    replace h : ofCompilation (Compilation.compile fs setup fresh path) = (.ok event, fs') := h
    rcases hcompile : Compilation.compile fs setup fresh path with ⟨e | done, left⟩ <;>
      rw [hcompile] at h
    · rw [ofCompilation.eq_def] at h
      split at h
      · next heq => cases heq
      · cases h
      · next e _ hother heq =>
        -- no error about a file, so that nothing was stored
        cases heq
        cases h
        refine Or.inl ⟨rfl, Compilation.eq_of_compile_error hcompile ?_⟩
        rintro name p cause rfl
        exact hother name p cause rfl
    · -- it went well, so its files were stored
      cases h
      obtain ⟨files, written, hdot, hslash, hstore⟩ := Compilation.exists_of_compile_ok hcompile
      exact Or.inr (Or.inl ⟨done.name, files, written, rfl, ⟨hdot, hslash⟩, hstore⟩)
  | delete setup name =>
    replace h : ofDeletion name (delete fs setup name) = (.ok event, fs') := h
    rcases hdelete : delete fs setup name with ⟨e | status, left⟩ <;> rw [hdelete] at h
    · -- a deletion that fails ends the run
      cases h
    · cases h
      obtain ⟨removed, hdiscard⟩ := discard_of_delete hdelete
      exact Or.inr (Or.inr ⟨name, removed, rfl, rfl, hdiscard⟩)

/-- The first of several actions, and the others. -/
theorem run_cons_ok {actions : List Action} (h : run (action :: actions) fs = (.ok history, fs')) :
    ∃ event next rest, perform fs action = (.ok event, next) ∧
      run actions next = (.ok rest, fs') ∧ history = event.toList ++ rest := by
  replace h : goOn (run actions) (perform fs action) = (.ok history, fs') := h
  rcases hperform : perform fs action with ⟨e | event, next⟩ <;> rw [hperform] at h
  · cases h
  · obtain ⟨hhistory, hleft⟩ := Prod.mk.inj h
    obtain ⟨rest, hrest, rfl⟩ := exists_of_map_ok hhistory
    exact ⟨event, next, rest, rfl, Prod.ext hrest hleft, rfl⟩

/-! ## The output directory -/

/-- The directory is there and holds only files. -/
structure Holds (fs : FileSystem) (directory : Path) (d : Location) : Prop where
  grounded : Grounded fs
  locate : fs.locate directory = .ok (d, .directory)
  file : ∀ entry, FileAt fs (entry :: d)

/--
The directory is missing. Its path is one, and leads up to directories only that are there, so that
it leads to an empty directory once it is made.
-/
structure Missing (fs : FileSystem) (directory : Path) : Prop where
  grounded : Grounded fs
  locate : fs.locate directory = .error .notFound
  named : directory.bytes ≠ []
  up : UpIsThere fs directory

/-- The entries of a scheme's files. -/
def entriesOf (name : String) (d : Location) : List Location :=
  Kind.all.map fun kind => (RawText.ofText name ++ kind.ending) :: d

theorem mem_entriesOf (name : String) (d : Location) (kind : Kind) :
    (RawText.ofText name ++ kind.ending) :: d ∈ entriesOf name d :=
  List.mem_map_of_mem (by cases kind <;> decide)

/-- Schemes of different names have no file in common. -/
theorem not_mem_entriesOf {n : String} (h : n ≠ name) (kind : Kind) :
    (RawText.ofText n ++ kind.ending) :: d ∉ entriesOf name d := by
  intro hmem
  obtain ⟨kind', _, heq⟩ := List.mem_map.mp hmem
  exact h (RawText.ofText_inj.mp (Kind.ending_inj (List.cons.inj heq).1).2.symm)

namespace Holds

theorem fileAt_entriesOf (h : Holds fs directory d) (name : String) :
    ∀ l ∈ entriesOf name d, FileAt fs l :=
  List.forall_mem_map.mpr fun kind _ => h.file (name ++ kind.ending)

theorem placed (h : Holds fs directory d) (hname : Plain name) :
    Placed fs directory name directory.steps (name ++ Kind.ending ·) d := by
  have hentry : (fun kind : Kind => RawText.ofText name ++ kind.ending) =
      fun kind => RawText.ofText (kind.fileName name) := by
    funext kind
    rw [kind.fileName_of_unending (unending_of_not_mem_dot hname.dot), RawText.ofText_append]
  rw [hentry]
  exact placed_of_name h.locate hname.slash fun kind => h.file _

theorem writeKinds {files : SyntaxFiles} {written : List Path} (h : Holds fs directory d)
    (hname : Plain name)
    (hwrite : files.writeKinds directory name Kind.all fs = (.ok written, fs')) :
    Holds fs' directory d ∧ Filled fs (entriesOf name d) fs' ∧
      ∀ kind : Kind, Fits (kind.file directory name) (name ++ kind.ending) := by
  obtain ⟨hg, hfilled, hfits⟩ := writeKinds_placed h.grounded (h.placed hname) hwrite
  refine ⟨⟨hg, ?_, fun entry => hfilled.fileAt (h.file entry)⟩, hfilled, fun kind => ?_⟩
  · exact locate_of_ways (hfilled.keepsWays (h.fileAt_entriesOf name)) h.locate
  · exact hfits kind (by cases kind <;> decide)

theorem store {files : SyntaxFiles} {written : List Path} (h : Holds fs directory d)
    (hname : Plain name) (hstore : files.store fs directory name = (.ok written, fs')) :
    Holds fs' directory d ∧ Filled fs (entriesOf name d) fs' ∧
      ∀ kind : Kind, Fits (kind.file directory name) (name ++ kind.ending) := by
  rw [SyntaxFiles.store, makeDirectories_of_isDirectory (isDirectory_iff.mpr ⟨d, h.locate⟩)]
    at hstore
  exact h.writeKinds hname hstore

theorem discard {removed : List Path} (h : Holds fs directory d) (hname : Plain name)
    (hdiscard : SyntaxFiles.discard fs directory name = (.ok removed, fs')) :
    Holds fs' directory d ∧ Cleared fs (entriesOf name d) fs' := by
  have hls := h.fileAt_entriesOf name
  rcases removeKinds_cases (h.placed hname) (by decide : Kind.all.Nodup) with
    ⟨left, hok, hcleared⟩ | ⟨_, _, _, e, herror⟩
  · obtain rfl : left = fs' := (Prod.mk.inj (hok.symm.trans hdiscard)).2
    refine ⟨⟨hcleared.grounded hls h.grounded, ?_, fun entry => hcleared.fileAt (h.file entry)⟩,
      hcleared⟩
    exact locate_of_ways (hcleared.keepsWays hls) h.locate
  · have hok : (SyntaxFiles.discard fs directory name).1 = .ok removed := by rw [hdiscard]
    exact absurd (herror.symm.trans hok) (by simp)

end Holds

namespace Missing

theorem fault (h : Missing fs directory) : fault? directory = none := by
  have hlocate := h.locate
  cases hfault : fault? directory with
  | none => rfl
  | some e =>
    rw [FileSystem.locate, spot, hfault] at hlocate
    cases hlocate
    exact absurd (bytes_of_fault? hfault) h.named

/-- No path leads into a directory that is missing. -/
theorem spot_ne {last : LastStep} {spot : Spot} (h : Missing fs directory) (hname : Plain name)
    (kind : Kind) : fs.spot last (kind.file directory name) ≠ .ok spot := by
  intro hspot
  -- the steps before the file's name would enter the directory
  obtain ⟨d, _, henters, _⟩ := enters_of_spot h.grounded (endsAt_fileName hname.slash kind) hspot
  rw [origin, kind.isAbsolute_file hname.slash] at henters
  have hlocate := locate_of_enters h.fault henters
  rw [h.locate] at hlocate
  cases hlocate

theorem discard {removed : List Path} (h : Missing fs directory) (hname : Plain name)
    (hdiscard : SyntaxFiles.discard fs directory name = (.ok removed, fs')) : fs' = fs := by
  refine eq_of_removeKinds_ok (fun kind next hremove => ?_) hdiscard
  obtain ⟨l, slash, hspot, _⟩ := remove_ok hremove
  exact h.spot_ne hname kind hspot

/-- Storing makes the directory, and in it there is nothing at first. -/
theorem store {files : SyntaxFiles} {written : List Path} (h : Missing fs directory)
    (hname : Plain name) (hstore : files.store fs directory name = (.ok written, fs')) :
    ∃ d made, (∀ entry, made.node? (entry :: d) = none) ∧ Holds fs' directory d ∧
      Filled made (entriesOf name d) fs' ∧
      ∀ kind : Kind, Fits (kind.file directory name) (name ++ kind.ending) := by
  rw [SyntaxFiles.store] at hstore
  split at hstore
  · cases hstore
  · next made hmade =>
    rcases makeDirectories_new h.grounded h.up hmade with rfl | ⟨d, hd⟩
    · -- then no file could be written
      obtain ⟨_, _, hwrite, _⟩ := writeKinds_cons_ok hstore
      rw [write] at hwrite
      split at hwrite
      · cases hwrite
      · next hspot => exact absurd hspot (h.spot_ne hname _)
      · next hspot => exact absurd hspot (h.spot_ne hname _)
    · have hg := grounded_makeDirectories h.grounded directory
      rw [hmade] at hg
      -- what was made is empty
      have hempty : ∀ entry, FileAt made (entry :: d) := by
        intro entry n hn
        rw [hd.empty entry] at hn
        cases hn
      have hholds : Holds made directory d := ⟨hg, hd.locate, hempty⟩
      exact ⟨d, made, hd.empty, hholds.writeKinds hname hstore⟩

end Missing

/-! ## What is left of a history -/

/-- What an event leaves of its scheme. -/
def Event.Leaves (fs : FileSystem) (directory : Path) (d : Location) : Event → Prop
  | compiled name => ∀ kind : Kind, Fits (kind.file directory name) (name ++ kind.ending) ∧
      fs.node? ((name ++ kind.ending) :: d) ≠ none
  | deleted name => ∀ kind : Kind, fs.node? ((name ++ kind.ending) :: d) = none

/-- What stands in the directory is what the history says of what stood there at the start. -/
structure Tells (fs : FileSystem) (directory : Path) (d : Location) (start : List String)
    (history : List Event) : Prop where
  last : ∀ n e, lastOf n history = some e → e.Leaves fs directory d
  untouched : ∀ n, lastOf n history = none →
    (fs.node? ((n ++ Kind.grammar.ending) :: d) ≠ none ↔ n ∈ start)

theorem Event.Leaves.congr {e : Event} (h : e.Leaves fs directory d)
    (hsame : ∀ kind : Kind, fs'.node? ((e.name ++ kind.ending) :: d)
      = fs.node? ((e.name ++ kind.ending) :: d)) : e.Leaves fs' directory d := by
  cases e with
  | compiled name =>
    intro kind
    obtain ⟨hfits, hthere⟩ := h kind
    exact ⟨hfits, fun hnone => hthere ((hsame kind).symm.trans hnone)⟩
  | deleted name =>
    intro kind
    exact (hsame kind).trans (h kind)

/-- One more event, about files of its own scheme only. -/
theorem Tells.append {e : Event} (h : Tells fs directory d start history)
    (hself : e.Leaves fs' directory d)
    (hother : ∀ l, l ∉ entriesOf e.name d → fs'.node? l = fs.node? l) :
    Tells fs' directory d start (history ++ [e]) := by
  -- names of other schemes have other entries
  have hsame : ∀ n, ¬e.name = n → ∀ kind : Kind, fs'.node? ((n ++ kind.ending) :: d)
      = fs.node? ((n ++ kind.ending) :: d) := fun n hn kind =>
    hother _ (not_mem_entriesOf (fun heq => hn heq.symm) kind)
  refine ⟨fun n e' hlast => ?_, fun n hnone => ?_⟩
  · rw [lastOf_append] at hlast
    split at hlast
    · -- the event is the last one for its own name
      cases hlast
      exact hself
    · next hne =>
      -- for other names it changes nothing
      have hname : e'.name = n := (mem_of_lastOf hlast).2
      refine (h.last n e' hlast).congr fun kind => ?_
      rw [hname]
      exact hsame n hne kind
  · rw [lastOf_append] at hnone
    split at hnone
    · cases hnone
    · next hne =>
      -- so it does for names that nothing happened to
      rw [hsame n hne]
      exact h.untouched n hnone

/-- The output directory agrees with the history, be it that it is missing still. -/
structure Agrees (fs : FileSystem) (directory : Path) (start : List String)
    (history : List Event) : Prop where
  plain : ∀ e ∈ history, Plain e.name
  state : (∃ d, Holds fs directory d ∧ Tells fs directory d start history) ∨
    Missing fs directory ∧ start = [] ∧ ∀ e ∈ history, ∃ n, e = .deleted n

theorem tells_of_empty {made : FileSystem} (hempty : ∀ entry, made.node? (entry :: d) = none)
    (hhistory : ∀ e ∈ history, ∃ n, e = .deleted n) : Tells made directory d [] history := by
  refine ⟨fun n e hlast => ?_, fun n _ => ?_⟩
  · obtain ⟨name, rfl⟩ := hhistory e (mem_of_lastOf hlast).1
    exact fun kind => hempty _
  · exact iff_of_false (fun hne => hne (hempty _)) List.not_mem_nil

/-- Where a scheme was compiled, all of its files are there. -/
theorem leaves_of_filled {made : FileSystem} (hfilled : Filled made (entriesOf name d) fs')
    (hfits : ∀ kind : Kind, Fits (kind.file directory name) (name ++ kind.ending)) :
    (Event.compiled name).Leaves fs' directory d := by
  intro kind
  refine ⟨hfits kind, ?_⟩
  obtain ⟨c, hc⟩ := hfilled.file _ (mem_entriesOf name d kind)
  simp [hc]

/-- Where one was deleted, none is. -/
theorem leaves_of_cleared (hcleared : Cleared fs (entriesOf name d) fs') :
    (Event.deleted name).Leaves fs' directory d := by
  intro kind
  rw [hcleared.node, if_pos (mem_entriesOf name d kind)]

theorem agrees_perform (h : Agrees fs directory start history)
    (hdir : action.setup.outputDirectory = directory)
    (hname : ∀ setup name, action = .delete setup name → Plain name)
    (hperform : perform fs action = (.ok event, fs')) :
    Agrees fs' directory start (history ++ event.toList) := by
  have hplain : ∀ e : Event, Plain e.name → ∀ e' ∈ history ++ [e], Plain e'.name := by
    intro e he e' hmem
    rcases List.mem_append.mp hmem with hmem | hmem
    · exact h.plain e' hmem
    · rwa [List.mem_singleton.mp hmem]
  subst hdir
  -- nothing is done, or a scheme is stored, or one is deleted; the directory may be missing in each
  rcases perform_ok hperform with ⟨rfl, rfl⟩ | ⟨name, files, written, rfl, hplainName, hstore⟩ |
    ⟨name, removed, rfl, haction, hdiscard⟩
  · -- nothing was done
    rw [Option.toList_none, List.append_nil]
    exact h
  · -- a scheme was stored, in a directory that was there or is there now
    refine ⟨hplain _ hplainName, Or.inl ?_⟩
    rcases h.state with ⟨d, hholds, htells⟩ | ⟨hmissing, rfl, hhistory⟩
    · obtain ⟨hholds', hfilled, hfits⟩ := hholds.store hplainName hstore
      exact ⟨d, hholds', htells.append (leaves_of_filled hfilled hfits) hfilled.other⟩
    · obtain ⟨d, made, hempty, hholds', hfilled, hfits⟩ := hmissing.store hplainName hstore
      exact ⟨d, hholds', (tells_of_empty hempty hhistory).append
        (leaves_of_filled hfilled hfits) hfilled.other⟩
  · -- a scheme was deleted, if its directory was there
    have hplainName : Plain name := hname _ name haction
    refine ⟨hplain _ hplainName, ?_⟩
    rcases h.state with ⟨d, hholds, htells⟩ | ⟨hmissing, rfl, hhistory⟩
    · obtain ⟨hholds', hcleared⟩ := hholds.discard hplainName hdiscard
      exact Or.inl ⟨d, hholds', htells.append (leaves_of_cleared hcleared) hcleared.other⟩
    · -- nothing was there to delete, and the directory is missing still
      obtain rfl := hmissing.discard hplainName hdiscard
      refine Or.inr ⟨hmissing, rfl, fun e hmem => ?_⟩
      rcases List.mem_append.mp hmem with hmem | hmem
      · exact hhistory e hmem
      · exact ⟨name, List.mem_singleton.mp hmem⟩

theorem agrees_run {actions : List Action} {rest : List Event}
    (h : Agrees fs directory start history)
    (hdir : ∀ action ∈ actions, action.setup.outputDirectory = directory)
    (hname : ∀ action ∈ actions, ∀ setup name, action = .delete setup name → Plain name)
    (hrun : run actions fs = (.ok rest, fs')) :
    Agrees fs' directory start (history ++ rest) := by
  induction actions generalizing fs history rest with
  | nil =>
    cases hrun
    rwa [List.append_nil]
  | cons action actions ih =>
    obtain ⟨event, next, rest, hperform, hrest, rfl⟩ := run_cons_ok hrun
    rw [List.forall_mem_cons] at hdir hname
    rw [← List.append_assoc]
    exact ih (agrees_perform h hdir.1 hname.1 hperform) hdir.2 hname.2 hrest

/-! ## The list -/

theorem compiled_of_missing (h : Missing fs directory) : compiled fs directory = .ok [] := by
  rw [compiled, FileSystem.list, h.locate]

/-- What is listed at the start is what an empty history says. -/
theorem agrees_start (h : (∃ d, Holds fs directory d) ∨ Missing fs directory) :
    ∃ start, compiled fs directory = .ok start ∧ Agrees fs directory start [] := by
  rcases h with ⟨d, hholds⟩ | hmissing
  · obtain ⟨start, hcompiled, hlists⟩ := lists_compiled hholds.locate
    refine ⟨start, hcompiled, by simp, Or.inl ⟨d, hholds, fun n e hlast => ?_, fun n _ => ?_⟩⟩
    · cases hlast
    · rw [hlists.mem_iff, Option.ne_none_iff_exists']
  · exact ⟨[], compiled_of_missing hmissing, by simp, Or.inr ⟨hmissing, rfl, by simp⟩⟩

/-- What the history says of a scheme. -/
def Standing (start : List String) (history : List Event) (n : String) : Prop :=
  lastOf n history = some (.compiled n) ∨ lastOf n history = none ∧ n ∈ start

theorem Tells.standing_iff (h : Tells fs directory d start history) (n : String) :
    fs.node? ((n ++ Kind.grammar.ending) :: d) ≠ none ↔ Standing start history n := by
  cases hlast : lastOf n history with
  | none =>
    rw [h.untouched n hlast, Standing, hlast]
    simp
  | some e =>
    have hleaves := h.last n e hlast
    obtain rfl := (mem_of_lastOf hlast).2
    rw [Standing, hlast]
    cases e with
    | compiled name => exact iff_of_true (hleaves .grammar).2 (Or.inl rfl)
    | deleted name => exact iff_of_false (fun hne => hne (hleaves .grammar)) (by simp [Event.name])

/--
**The list tells the history.** After any actions on an output directory that is there and holds
only files, or is missing, those names are listed that were compiled and not deleted since, and
those that were listed at the start and never came up; in the order of their bytes, each once. Of a
scheme that was compiled last all three files are there, of one that was deleted last none.
-/
theorem list_tells_history {actions : List Action}
    (h : (∃ d, Holds fs directory d) ∨ Missing fs directory)
    (hdir : ∀ action ∈ actions, action.setup.outputDirectory = directory)
    (hname : ∀ action ∈ actions, ∀ setup name, action = .delete setup name → Plain name)
    (hrun : run actions fs = (.ok history, fs')) :
    ∃ start names, compiled fs directory = .ok start ∧ compiled fs' directory = .ok names ∧
      names.Pairwise (fun m n => bytesOf m < bytesOf n) ∧
      (∀ n, n ∈ names ↔ Standing start history n) ∧
      (∀ n, lastOf n history = some (.compiled n) →
        ∀ kind, fs'.isFile (Kind.file kind directory n) = true) ∧
      ∀ n, lastOf n history = some (.deleted n) →
        ∀ kind l node, fs'.locate (Kind.file kind directory n) ≠ .ok (l, node) := by
  obtain ⟨start, hstart, hagrees⟩ := agrees_start h
  have hend := agrees_run hagrees hdir hname hrun
  rw [List.nil_append] at hend
  rcases hend.state with ⟨d, hholds, htells⟩ | ⟨hmissing, rfl, hhistory⟩
  · -- the directory is there at the end, and what it holds is what the history tells
    obtain ⟨names, hcompiled, hlists⟩ := lists_compiled hholds.locate
    have hplain : ∀ n e, lastOf n history = some e → Plain n := by
      intro n e hlast
      obtain ⟨hmem, rfl⟩ := mem_of_lastOf hlast
      exact hend.plain e hmem
    refine ⟨start, names, hstart, hcompiled, ?_, fun n => ?_, fun n hlast kind => ?_,
      fun n hlast kind l node => ?_⟩
    · exact hlists.sorted.pairwise.imp bytesOf_lt_of_lt
    · rw [hlists.mem_iff, ← htells.standing_iff, Option.ne_none_iff_exists']
    · have hleaves := htells.last n _ hlast
      exact ((hholds.placed (hplain n _ hlast)).isFile_iff kind).mpr (hleaves kind)
    · have hleaves := htells.last n _ hlast
      exact (hholds.placed (hplain n _ hlast)).locate_ne kind (hleaves kind) node
  · -- the directory was never made, so nothing was ever compiled
    have hnever : ∀ n, lastOf n history ≠ some (.compiled n) := by
      intro n hlast
      obtain ⟨m, heq⟩ := hhistory _ (mem_of_lastOf hlast).1
      cases heq
    refine ⟨[], [], hstart, compiled_of_missing hmissing, List.Pairwise.nil, fun n => ?_,
      fun n hlast => absurd hlast (hnever n), fun n hlast kind l node hlocate => ?_⟩
    · -- no name stands at the end
      simp [Standing, hnever n]
    · -- no file of a missing directory is found
      obtain ⟨hmem, _⟩ := mem_of_lastOf hlast
      obtain ⟨s, hspot⟩ := exists_spot_of_locate hlocate
      exact hmissing.spot_ne (hend.plain _ hmem) kind hspot

/-- The files of one scheme, and another scheme to compile. -/
def demoAndMine : FileSystem := demoFiles.set ["mine.json"] (.file "\x7b\x7d".toUTF8)

/-- Compiles the one and deletes the other. -/
def replaceDemo : List Action :=
  [.compile ⟨⟨"/out"⟩, ⟨"/shared"⟩, none⟩ (.ofSeed []) ⟨"/mine.json"⟩,
    .delete ⟨⟨"/out"⟩, ⟨"/shared"⟩, none⟩ "demo"]

theorem list_tells_history_of_demo : ∃ names,
    compiled (run replaceDemo demoAndMine).2 ⟨"/out"⟩ = .ok names ∧ "mine" ∈ names ∧
      "demo" ∉ names := by
  -- the directory of three files, with a scheme next to it
  have hroot : (["mine.json"] : Location) ≠ [] := List.cons_ne_nil _ _
  have hfilled : Filled demoFiles [["mine.json"]] demoAndMine := .cons_of_set hroot (.refl _)
  have hnone : demoFiles.node? ["mine.json"] = none := by decide +kernel
  have hholds : Holds demoAndMine ⟨"/out"⟩ ["out"] :=
    ⟨grounded_demoFiles.set rfl hroot (Or.inr (by simp [hnone])), by rfl,
      fun entry => hfilled.fileAt (fileAt_demoFiles entry)⟩
  have hname : ∀ action ∈ replaceDemo, ∀ setup name, action = .delete setup name → Plain name := by
    intro action hmem setup name haction
    subst haction
    simp only [replaceDemo, List.mem_cons, List.not_mem_nil, or_false] at hmem
    rcases hmem with h | h <;> cases h
    exact ⟨by decide, by decide⟩
  have hhistory : (run replaceDemo demoAndMine).1 = .ok [.compiled "mine", .deleted "demo"] := by
    decide +kernel
  generalize hrun : run replaceDemo demoAndMine = result at hhistory ⊢
  obtain ⟨outcome, left⟩ := result
  obtain rfl : outcome = .ok [.compiled "mine", .deleted "demo"] := hhistory
  obtain ⟨start, names, _, hcompiled, _, hnames, _⟩ := list_tells_history (Or.inl ⟨_, hholds⟩)
    (by simp [replaceDemo, Action.setup]) hname hrun
  refine ⟨names, hcompiled, ?_, ?_⟩
  · -- it was compiled last
    exact (hnames "mine").mpr (Or.inl (by decide))
  · -- it was deleted last
    intro hmem
    rcases (hnames "demo").mp hmem with hlast | ⟨hlast, _⟩
    · exact absurd hlast (by decide)
    · exact absurd hlast (by decide)

/-- A scheme to compile, and the grammar of another one. -/
def oldAndMine : FileSystem where
  nodes := [(["out"], .directory), (["old.tmLanguage.json", "out"], .file "".toUTF8),
    (["mine.json"], .file "\x7b\x7d".toUTF8)]

/-- Compiles the scheme into a directory. -/
def compileMine (directory : Path) : List Action :=
  [.compile ⟨directory, ⟨"/shared"⟩, none⟩ (.ofSeed []) ⟨"/mine.json"⟩]

/-- Once `new` is made, the missing directory `new/../out` is one that was there before. -/
theorem list_tells_more : ∃ fs' names,
    oldAndMine.locate ⟨"/new/../out"⟩ = .error .notFound ∧
    run (compileMine ⟨"/new/../out"⟩) oldAndMine = (.ok [.compiled "mine"], fs') ∧
    compiled oldAndMine ⟨"/new/../out"⟩ = .ok [] ∧ compiled fs' ⟨"/new/../out"⟩ = .ok names ∧
    "old" ∈ names := by
  have hhistory : (run (compileMine ⟨"/new/../out"⟩) oldAndMine).1 = .ok [.compiled "mine"] := by
    decide +kernel
  have hleft : (run (compileMine ⟨"/new/../out"⟩) oldAndMine).2.isDirectory ⟨"/new/../out"⟩ = true ∧
      (run (compileMine ⟨"/new/../out"⟩) oldAndMine).2.canonical ⟨"/new/../out"⟩ = .ok ["out"] ∧
      (run (compileMine ⟨"/new/../out"⟩) oldAndMine).2.node?
        ["old" ++ Kind.grammar.ending, "out"] ≠ none := by decide +kernel
  generalize run (compileMine ⟨"/new/../out"⟩) oldAndMine = result at hhistory hleft ⊢
  obtain ⟨outcome, left⟩ := result
  obtain rfl : outcome = .ok [.compiled "mine"] := hhistory
  -- the path leads to the old directory now, where the old file is
  obtain ⟨hdirectory, hcanonical, hold⟩ := hleft
  obtain ⟨l, hl⟩ := isDirectory_iff.mp hdirectory
  obtain rfl : l = ["out"] := Except.ok.inj ((canonical_of_locate hl).symm.trans hcanonical)
  obtain ⟨names, hcompiled, hlists⟩ := lists_compiled hl
  exact ⟨left, names, by rfl, rfl, by decide +kernel, hcompiled,
    (hlists.mem_iff "old").mpr (Option.ne_none_iff_exists'.mp hold)⟩

/-- The empty path is never there to be listed, though files are written next to it. -/
theorem list_tells_nothing :
    (run (compileMine ⟨""⟩) oldAndMine).1 = .ok [.compiled "mine"] ∧
    compiled (run (compileMine ⟨""⟩) oldAndMine).2 ⟨""⟩ = .ok [] :=
  ⟨by decide +kernel, by decide +kernel⟩

end Highlight.Housekeeping
