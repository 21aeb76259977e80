import Highlight.Proofs.FileSystem.Resolve
import Highlight.Proofs.Success

/-!
# File systems that differ in the bytes of files

Two file systems may have the same nodes but for the bytes in their files (`Refilled`). Then a path
leads to the same place in both or to none for the same reason, and whatever is made or written is
made in both or fails in both for the same reason. So only reading tells them apart.
-/

namespace Highlight

/-- A node without its bytes. -/
def Node.emptied : Node → Node
  | .file _ => .file .empty
  | node => node

namespace FileSystem

/-- `fs'` is `fs` with other bytes in its files. -/
structure Refilled (fs fs' : FileSystem) : Prop where
  cwd : fs'.cwd = fs.cwd
  node : ∀ l, (fs'.node? l).map Node.emptied = (fs.node? l).map Node.emptied

variable {fs fs' : FileSystem}

namespace Refilled

/-- The four ways in which a location is met. -/
theorem node_cases (h : Refilled fs fs') (l : Location) :
    (fs.node? l = none ∧ fs'.node? l = none) ∨
    (∃ c c', fs.node? l = some (.file c) ∧ fs'.node? l = some (.file c')) ∨
    (fs.node? l = some .directory ∧ fs'.node? l = some .directory) ∨
    ∃ target, fs.node? l = some (.link target) ∧ fs'.node? l = some (.link target) := by
  have hl := h.node l
  cases hn : fs.node? l with
  | none =>
    rw [hn] at hl
    exact .inl ⟨rfl, Option.map_eq_none_iff.mp hl⟩
  | some n =>
    rw [hn] at hl
    obtain ⟨n', hn', hempty⟩ := Option.map_eq_some_iff.mp hl
    cases n with
    | file c =>
      -- other bytes, but a file
      cases n' with
      | file c' => exact .inr (.inl ⟨c, c', rfl, hn'⟩)
      | directory => cases hempty
      | link => cases hempty
    | directory =>
      cases n' with
      | file => cases hempty
      | directory => exact .inr (.inr (.inl ⟨rfl, hn'⟩))
      | link => cases hempty
    | link target =>
      cases n' with
      | file => cases hempty
      | directory => cases hempty
      | link => cases hempty; exact .inr (.inr (.inr ⟨target, rfl, hn'⟩))

/-! ## Where paths lead -/

theorem followWith (h : Refilled fs fs') (last : LastStep)
    (go : Location → Path → List Step → Bool → Except FileError Spot) (steps : List Step)
    (slash : Bool) (d : Location) :
    fs'.followWith last go steps slash d = fs.followWith last go steps slash d := by
  induction steps generalizing d with
  | nil => rfl
  | cons step rest ih =>
    cases step with
    | here => exact ih d
    | up => exact ih d.tail
    | into name =>
      rw [FileSystem.followWith, FileSystem.followWith]
      -- a walk only asks what kind of node stands at a name
      rcases h.node_cases (name :: d) with
        ⟨hn, hn'⟩ | ⟨c, c', hn, hn'⟩ | ⟨hn, hn'⟩ | ⟨target, hn, hn'⟩
      · rw [hn, hn']
      · rw [hn, hn']
      · rw [hn, hn']
        dsimp only
        rw [ih]
      · rw [hn, hn']

theorem follow (h : Refilled fs fs') (last : LastStep) (links : Nat) :
    fs'.follow last links = fs.follow last links := by
  induction links with
  | zero =>
    funext steps slash d
    exact h.followWith last _ steps slash d
  | succ links ih =>
    -- a jump spends a link, so it is one of the walks with fewer links
    have hjump : jump fs' last (links + 1) = jump fs last (links + 1) := by
      funext d t rest slash
      exact congrFun (congrFun (congrFun ih _) _) _
    funext steps slash d
    rw [follow_eq, follow_eq, hjump]
    exact h.followWith last _ steps slash d

theorem spot (h : Refilled fs fs') (last : LastStep) (p : Path) :
    fs'.spot last p = fs.spot last p := by
  rw [FileSystem.spot, FileSystem.spot, h.follow, h.cwd]

theorem locate_cases (h : Refilled fs fs') (p : Path) :
    (∃ e, fs.locate p = .error e ∧ fs'.locate p = .error e) ∨
    ∃ l n n', fs.locate p = .ok (l, n) ∧ fs'.locate p = .ok (l, n') ∧
      n'.emptied = n.emptied := by
  rw [locate, locate, h.spot]
  cases fs.spot ⟨true, false⟩ p with
  | error e => exact .inl ⟨e, rfl, rfl⟩
  | ok spot =>
    cases spot with
    | free => exact .inl ⟨.notFound, rfl, rfl⟩
    | taken l slash =>
      dsimp only
      -- the bytes of the node do not decide where a path leads
      rcases h.node_cases l with ⟨hn, hn'⟩ | ⟨c, c', hn, hn'⟩ | ⟨hn, hn'⟩ | ⟨target, hn, hn'⟩
      · rw [hn, hn']
        exact .inl ⟨.notFound, rfl, rfl⟩
      · rw [hn, hn']
        cases slash with
        | true => exact .inl ⟨.notADirectory, rfl, rfl⟩
        | false => exact .inr ⟨l, _, _, rfl, rfl, rfl⟩
      · rw [hn, hn']
        exact .inr ⟨l, _, _, rfl, rfl, rfl⟩
      · rw [hn, hn']
        exact .inr ⟨l, _, _, rfl, rfl, rfl⟩

theorem canonical (h : Refilled fs fs') (p : Path) : fs'.canonical p = fs.canonical p := by
  rw [FileSystem.canonical, FileSystem.canonical]
  rcases h.locate_cases p with ⟨e, he, he'⟩ | ⟨l, n, n', hl, hl', _⟩
  · rw [he, he']
  · rw [hl, hl']
    rfl

theorem isFile (h : Refilled fs fs') (p : Path) : fs'.isFile p = fs.isFile p := by
  rw [FileSystem.isFile, FileSystem.isFile]
  rcases h.locate_cases p with ⟨e, he, he'⟩ | ⟨l, n, n', hl, hl', hempty⟩
  · rw [he, he']
  · rw [hl, hl']
    cases n <;> cases n' <;> first | rfl | cases hempty

theorem isDirectory (h : Refilled fs fs') (p : Path) : fs'.isDirectory p = fs.isDirectory p := by
  rw [FileSystem.isDirectory, FileSystem.isDirectory]
  rcases h.locate_cases p with ⟨e, he, he'⟩ | ⟨l, n, n', hl, hl', hempty⟩
  · rw [he, he']
  · rw [hl, hl']
    cases n <;> cases n' <;> first | rfl | cases hempty

/-! ## What is made and written -/

theorem set (h : Refilled fs fs') {l : Location} (hl : l ≠ []) {n n' : Node}
    (hn : n'.emptied = n.emptied) : Refilled (fs.set l n) (fs'.set l n') := by
  refine ⟨h.cwd, fun m => ?_⟩
  rw [node?_set hl, node?_set hl]
  split
  · exact congrArg some hn
  · exact h.node m

theorem write (h : Refilled fs fs') (p : Path) (content content' : ByteArray) :
    SameOutcome Refilled (fs.write p content) (fs'.write p content') := by
  rw [FileSystem.write, FileSystem.write, h.spot]
  cases fs.spot ⟨true, true⟩ p with
  | error e => exact .error e
  | ok spot =>
    cases spot with
    | free d name slash => exact .ok (h.set (List.cons_ne_nil name d) rfl)
    | taken l slash =>
      dsimp only
      -- only a file is written over, whatever its bytes
      rcases h.node_cases l with ⟨hn, hn'⟩ | ⟨c, c', hn, hn'⟩ | ⟨hn, hn'⟩ | ⟨target, hn, hn'⟩
      · rw [hn, hn']
        exact .error _
      · rw [hn, hn']
        exact .ok (h.set (ne_root_of_file hn) rfl)
      · rw [hn, hn']
        exact .error _
      · rw [hn, hn']
        exact .error _

theorem makeDirectory (h : Refilled fs fs') (p : Path) :
    SameOutcome Refilled (fs.makeDirectory p) (fs'.makeDirectory p) := by
  rw [FileSystem.makeDirectory, FileSystem.makeDirectory, h.spot]
  cases fs.spot ⟨false, false⟩ p with
  | error e => exact .error e
  | ok spot =>
    cases spot with
    | free d name slash => exact .ok (h.set (List.cons_ne_nil name d) rfl)
    | taken => exact .error _

/-- A directory that is made, or is there already. -/
theorem makeDirectory_or_isDirectory (h : Refilled fs fs') (p : Path) (e : FileError) :
    let made (fs : FileSystem) : Except FileError Unit × FileSystem :=
      if e = .alreadyExists ∧ fs.isDirectory p then (.ok (), fs) else (.error e, fs)
    (made fs').1 = (made fs).1 ∧ Refilled (made fs).2 (made fs').2 := by
  intro made
  simp only [made, h.isDirectory p]
  split
  · exact ⟨rfl, h⟩
  · exact ⟨rfl, h⟩

theorem makeChain (h : Refilled fs fs') (ps : List Path) :
    (fs'.makeChain ps).1 = (fs.makeChain ps).1 ∧
      Refilled (fs.makeChain ps).2 (fs'.makeChain ps).2 := by
  induction ps generalizing fs fs' with
  | nil => exact ⟨rfl, h⟩
  | cons p parents ih =>
    rw [FileSystem.makeChain, FileSystem.makeChain]
    -- one attempt fails the same way as the other
    have hfirst := h.makeDirectory p
    generalize fs.makeDirectory p = r, fs'.makeDirectory p = r' at hfirst
    cases hfirst with
    | ok hmade => exact ⟨rfl, hmade⟩
    | error e =>
      cases e with
      | notFound =>
        -- the parents are made first, and then another attempt is made
        obtain ⟨hsame, hparents⟩ := ih h
        generalize fs.makeChain parents = r, fs'.makeChain parents = r' at hsame hparents
        obtain ⟨outcome, fs₁⟩ := r
        obtain ⟨outcome', fs₁'⟩ := r'
        obtain rfl : outcome' = outcome := hsame
        cases outcome' with
        | error e => exact ⟨rfl, hparents⟩
        | ok _ =>
          have hsecond := hparents.makeDirectory p
          dsimp only at hsecond ⊢
          generalize fs₁.makeDirectory p = r, fs₁'.makeDirectory p = r' at hsecond
          cases hsecond with
          | ok hmade => exact ⟨rfl, hmade⟩
          | error e => exact hparents.makeDirectory_or_isDirectory p e
      | _ => exact h.makeDirectory_or_isDirectory p _

theorem makeDirectories (h : Refilled fs fs') (p : Path) :
    (fs'.makeDirectories p).1 = (fs.makeDirectories p).1 ∧
      Refilled (fs.makeDirectories p).2 (fs'.makeDirectories p).2 := h.makeChain p.ancestors

end Refilled

end FileSystem

end Highlight
