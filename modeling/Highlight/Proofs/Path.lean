import Highlight.Path
import Highlight.Proofs.RawText
import Mathlib.Data.List.TakeWhile

/-!
# The steps of a path

What a path prescribes is read off its pieces: `moves` keeps those of its steps that lead somewhere
else, and neither slashes nor dots matter to it. Joining a name to a path adds one step
(`steps_join`), and cutting off the last piece takes one away (`moves_parent`). What is left by
cutting is the beginning of the bytes, so that a path and its parent start from the same directory.
-/

namespace Highlight.Path

theorem bytes_mk (t : RawText) : bytes ⟨t⟩ = t.bytes := rfl

theorem eq_empty {p : Path} (h : p.bytes = []) : p = ⟨""⟩ :=
  congrArg (fun bytes => Path.mk ⟨bytes⟩) h

/-! ## Pieces -/

theorem splitSlashes_slash (t : List UInt8) :
    splitSlashes (slash :: t) = [] :: splitSlashes t := rfl

theorem splitSlashes_ne_nil (t : List UInt8) : splitSlashes t ≠ [] := by
  cases t with
  | nil => simp [splitSlashes]
  | cons c t =>
    rw [splitSlashes]
    split
    · simp
    · split <;> simp

theorem splitSlashes_append (t u : List UInt8) :
    splitSlashes (t ++ slash :: u) = splitSlashes t ++ splitSlashes u := by
  induction t with
  | nil => rfl
  | cons c t ih =>
    rw [List.cons_append, splitSlashes, splitSlashes, ih]
    -- a slash begins a new piece
    by_cases hc : c = slash
    · rw [if_pos hc, if_pos hc]
      rfl
    · -- any other byte is put in front of the first piece
      rw [if_neg hc, if_neg hc]
      cases ht : splitSlashes t with
      | nil => exact absurd ht (splitSlashes_ne_nil t)
      | cons piece pieces => rfl

theorem splitSlashes_of_not_mem {t : List UInt8} (h : slash ∉ t) : splitSlashes t = [t] := by
  induction t with
  | nil => rfl
  | cons c t ih =>
    rw [List.mem_cons, not_or] at h
    rw [splitSlashes, if_neg (Ne.symm h.1), ih h.2]

theorem not_mem_of_mem_splitSlashes {t piece : List UInt8} (h : piece ∈ splitSlashes t) :
    slash ∉ piece := by
  induction t generalizing piece with
  | nil =>
    obtain rfl := List.mem_singleton.mp h
    exact List.not_mem_nil
  | cons c t ih =>
    rw [splitSlashes] at h
    split at h
    · -- behind a slash an empty piece begins
      rcases List.mem_cons.mp h with rfl | h
      · exact List.not_mem_nil
      · exact ih h
    · next hc =>
      split at h
      · obtain rfl := List.mem_singleton.mp h
        simp [Ne.symm hc]
      · next first pieces hsplit =>
        rw [hsplit] at ih
        rcases List.mem_cons.mp h with rfl | h
        · -- the byte is put in front of the first piece, and is no slash
          rw [List.mem_cons, not_or]
          exact ⟨Ne.symm hc, ih List.mem_cons_self⟩
        · exact ih (List.mem_cons_of_mem _ h)

theorem joinSlashes_cons (piece : List UInt8) {pieces : List (List UInt8)} (h : pieces ≠ []) :
    joinSlashes (piece :: pieces) = piece ++ slash :: joinSlashes pieces := by
  cases pieces with
  | nil => exact absurd rfl h
  | cons next pieces => rfl

theorem joinSlashes_splitSlashes (t : List UInt8) : joinSlashes (splitSlashes t) = t := by
  induction t with
  | nil => rfl
  | cons c t ih =>
    rw [splitSlashes]
    by_cases hc : c = slash
    · rw [if_pos hc, joinSlashes_cons _ (splitSlashes_ne_nil t), ih, hc]
      rfl
    · -- a byte that is no slash is put back in front of the first piece
      rw [if_neg hc]
      cases ht : splitSlashes t with
      | nil => exact absurd ht (splitSlashes_ne_nil t)
      | cons piece pieces =>
        rw [ht] at ih
        cases pieces with
        | nil => exact congrArg (c :: ·) ih
        | cons next pieces => exact congrArg (c :: ·) ih

theorem splitSlashes_joinSlashes {pieces : List (List UInt8)} (hne : pieces ≠ [])
    (h : ∀ piece ∈ pieces, slash ∉ piece) : splitSlashes (joinSlashes pieces) = pieces := by
  induction pieces with
  | nil => exact absurd rfl hne
  | cons piece pieces ih =>
    rw [List.forall_mem_cons] at h
    cases pieces with
    | nil => exact splitSlashes_of_not_mem h.1
    | cons next pieces =>
      -- between two pieces stands the slash that parts them
      rw [joinSlashes_cons _ (by simp), splitSlashes_append, splitSlashes_of_not_mem h.1,
        ih (by simp) h.2]
      rfl

/-- Fewer pieces make the beginning of the bytes. -/
theorem prefix_joinSlashes {pieces pieces' : List (List UInt8)} (h : pieces <+: pieces') :
    joinSlashes pieces <+: joinSlashes pieces' := by
  induction pieces generalizing pieces' with
  | nil => exact List.nil_prefix
  | cons piece pieces ih =>
    obtain ⟨others, rfl⟩ := h
    have hrest : joinSlashes pieces <+: joinSlashes (pieces ++ others) := ih ⟨others, rfl⟩
    -- an empty tail has no slash in front of it
    by_cases hp : pieces = []
    · subst hp
      cases others with
      | nil => exact List.prefix_refl _
      | cons next others => exact List.prefix_append piece _
    · rw [List.cons_append, joinSlashes_cons _ hp, joinSlashes_cons _ (by simp [hp])]
      obtain ⟨u, hu⟩ := hrest
      exact ⟨u, by rw [List.append_assoc, List.cons_append, hu]⟩

/-! ## Steps -/

/-- The step that a piece prescribes which names something. -/
def stepOf (piece : List UInt8) : Step :=
  if piece = [dot, dot] then .up else .into ⟨piece⟩

/-- The steps that pieces prescribe, dots left out. -/
def movesOf (pieces : List (List UInt8)) : List Step := (pieces.filter (!isVoid ·)).map stepOf

/-- The steps of a path that lead somewhere else. -/
def moves (p : Path) : List Step := p.steps.filter (· ≠ .here)

theorem stepOf_ne_here (piece : List UInt8) : stepOf piece ≠ .here := by
  unfold stepOf
  split <;> simp

theorem movesOf_append (pieces pieces' : List (List UInt8)) :
    movesOf (pieces ++ pieces') = movesOf pieces ++ movesOf pieces' := by
  rw [movesOf, List.filter_append, List.map_append]
  rfl

theorem movesOf_cons_of_isVoid {piece : List UInt8} (h : isVoid piece = true)
    (pieces : List (List UInt8)) : movesOf (piece :: pieces) = movesOf pieces := by
  rw [movesOf, List.filter_cons_of_neg (by simp [h])]
  rfl

theorem movesOf_cons {piece : List UInt8} (h : isVoid piece = false)
    (pieces : List (List UInt8)) : movesOf (piece :: pieces) = stepOf piece :: movesOf pieces := by
  rw [movesOf, List.filter_cons_of_pos (by simp [h])]
  rfl

/-- The steps that bytes prescribe. -/
def stepsOf (t : List UInt8) : List Step := ((splitSlashes t).filter (· ≠ [])).map
  fun piece => if piece = [dot] then .here else stepOf piece

theorem steps_eq (p : Path) : p.steps = stepsOf p.bytes := rfl

theorem stepsOf_append (t u : List UInt8) : stepsOf (t ++ slash :: u) = stepsOf t ++ stepsOf u := by
  rw [stepsOf, splitSlashes_append, List.filter_append, List.map_append]
  rfl

theorem moves_eq (p : Path) : p.moves = movesOf (splitSlashes p.bytes) := by
  rw [moves, steps_eq, stepsOf]
  generalize splitSlashes p.bytes = pieces
  induction pieces with
  | nil => rfl
  | cons piece pieces ih =>
    -- empty pieces make no moves, and neither do single dots
    by_cases hempty : piece = []
    · subst hempty
      rw [List.filter_cons_of_neg (by simp), movesOf_cons_of_isVoid (by rfl)]
      exact ih
    · rw [List.filter_cons_of_pos (by simpa using hempty), List.map_cons]
      by_cases hdot : piece = [dot]
      · subst hdot
        rw [List.filter_cons_of_neg (by simp), movesOf_cons_of_isVoid (by rfl)]
        exact ih
      · rw [if_neg hdot, movesOf_cons (by simp [isVoid, hempty, hdot]),
          List.filter_cons_of_pos (by simpa using stepOf_ne_here piece), ih]

theorem moves_eq_parts (p : Path) : p.moves = movesOf p.parts.pieces := by
  rw [moves_eq, parts]
  split
  · next rest h => rw [h, splitSlashes_slash, movesOf_cons_of_isVoid (by rfl)]
  · next h => rw [h]; rfl
  · next rest h =>
    -- the dot in front is a move to the same directory
    have hdot : splitSlashes (dot :: slash :: rest) = [dot] :: splitSlashes rest :=
      splitSlashes_append [dot] rest
    rw [h, hdot, splitSlashes_slash, movesOf_cons_of_isVoid (by rfl),
      movesOf_cons_of_isVoid (by rfl)]
  · rfl

theorem moves_eq_components (p : Path) : p.moves = p.components.2.map stepOf := moves_eq_parts p

theorem isAbsolute_iff {p : Path} : p.isAbsolute = true ↔ p.bytes.head? = some slash := by
  rw [isAbsolute, parts]
  -- only the first form has a front of its own
  split
  · next h => simp [h]
  · next h => simp [h]
  · next h => simp [h]
  · next text hslash _ _ =>
    constructor
    · intro h; cases h
    · intro h
      cases ht : p.bytes with
      | nil => simp [ht] at h
      | cons c rest =>
        rw [ht] at h
        obtain rfl := Option.some.inj h
        exact absurd ht (hslash rest)

/-! ## Joining a name -/

theorem slash_mem_ofText_iff {s : String} : slash ∈ (RawText.ofText s).bytes ↔ '/' ∈ s.toList :=
  RawText.asciiByte_mem_ofText_iff (c := '/') (by decide)

/-- A text that names an entry of a directory. -/
structure IsName (name : RawText) : Prop where
  slash : slash ∉ name.bytes
  void : isVoid name.bytes = false
  up : name.bytes ≠ [dot, dot]

theorem IsName.stepsOf {name : RawText} (h : IsName name) :
    stepsOf name.bytes = [.into name] := by
  have hvoid := h.void
  simp only [isVoid, Bool.or_eq_false_iff, beq_eq_false_iff_ne, ne_eq] at hvoid
  rw [Path.stepsOf, splitSlashes_of_not_mem h.slash,
    List.filter_cons_of_pos (by simpa using hvoid.1), List.filter_nil, List.map_singleton,
    if_neg hvoid.2, stepOf, if_neg h.up]

theorem IsName.not_isAbsolute {name : RawText} (h : IsName name) :
    (⟨name⟩ : Path).isAbsolute = false := by
  rw [Bool.eq_false_iff]
  intro habs
  exact h.slash (List.mem_of_mem_head? (isAbsolute_iff.mp habs))

/-- A name is too long to be dots if its ending is. -/
theorem isName_of_suffix {name : RawText} {ending : List UInt8} (hslash : slash ∉ name.bytes)
    (h : ending <:+ name.bytes) (hlength : 2 < ending.length) : IsName name := by
  have hlong : 2 < name.bytes.length := Nat.lt_of_lt_of_le hlength h.length_le
  refine ⟨hslash, ?_, ?_⟩
  · rw [isVoid, Bool.or_eq_false_iff, beq_eq_false_iff_ne, beq_eq_false_iff_ne]
    exact ⟨fun heq => by simp [heq] at hlong, fun heq => by simp [heq] at hlong⟩
  · intro heq
    simp [heq] at hlong

/--
Whatever ending is put behind a text, the last step is into a name with that ending, and the steps
before it are the same.
-/
theorem exists_stepsOf_append (t : List UInt8) : ∃ steps stem, ∀ ending : List UInt8,
    slash ∉ ending → 2 < ending.length →
      stepsOf (t ++ ending) = steps ++ [.into ⟨stem ++ ending⟩] := by
  -- a text without slashes, with an ending, is a single name
  have hlast : ∀ u ending : List UInt8, slash ∉ u → slash ∉ ending → 2 < ending.length →
      stepsOf (u ++ ending) = [.into ⟨u ++ ending⟩] := by
    intro u ending hu hslash hlength
    have hname : IsName ⟨u ++ ending⟩ :=
      isName_of_suffix (by simp [hu, hslash]) (by simp) hlength
    simpa using hname.stepsOf
  by_cases hmem : slash ∈ t
  · -- the last slash is where the last step begins
    obtain ⟨after, before, hsplit, hafter⟩ :=
      List.eq_append_cons_of_mem (List.mem_reverse.mpr hmem)
    obtain rfl : t = before.reverse ++ slash :: after.reverse := by
      rw [← List.reverse_inj, hsplit]
      simp
    refine ⟨stepsOf before.reverse, after.reverse, ?_⟩
    intro ending hslash hlength
    rw [List.append_assoc, List.cons_append, stepsOf_append,
      hlast _ _ (by simpa using hafter) hslash hlength]
  · -- no slash at all, so there is one step
    exact ⟨[], t, fun ending => hlast t ending hmem⟩

/-- The last step of a path is into a name with the ending of the path. -/
theorem exists_steps_of_suffix {p : Path} {ending : List UInt8} (h : ending <:+ p.bytes)
    (hslash : slash ∉ ending) (hlength : 2 < ending.length) :
    ∃ steps name, p.steps = steps ++ [.into name] ∧ ending <:+ name.bytes := by
  obtain ⟨t, ht⟩ := h
  obtain ⟨steps, stem, hsteps⟩ := exists_stepsOf_append t
  refine ⟨steps, ⟨stem ++ ending⟩, ?_, by simp⟩
  rw [steps_eq, ← ht, hsteps ending hslash hlength]

/-- A relative path is put behind a path with a slash between them, unless one stands there. -/
theorem bytes_join {q : Path} (h : q.isAbsolute = false) (p : Path) :
    (p.join q).bytes = p.bytes ++ q.bytes ∧ (p.bytes = [] ∨ p.bytes.getLast? = some slash) ∨
      (p.join q).bytes = p.bytes ++ slash :: q.bytes ∧ p.bytes ≠ [] := by
  rw [join, if_neg (by simp [h])]
  split
  · next hend => exact Or.inl ⟨rfl, hend⟩
  · next hend =>
    exact Or.inr ⟨List.append_assoc p.bytes [slash] q.bytes, fun hempty => hend (Or.inl hempty)⟩

/-- What is put behind a relative path stays behind it when that is joined to another one. -/
theorem bytes_join_append {t ending : RawText}
    (h : (⟨t ++ ending⟩ : Path).isAbsolute = (⟨t⟩ : Path).isAbsolute) (p : Path) :
    (p.join ⟨t ++ ending⟩).bytes = (p.join ⟨t⟩).bytes ++ ending.bytes := by
  rw [join, join, h]
  split
  · rfl
  · split <;> exact (List.append_assoc _ t.bytes ending.bytes).symm

theorem suffix_join (p q : Path) : q.bytes <:+ (p.join q).bytes := by
  by_cases h : q.isAbsolute = true
  · have hjoin : p.join q = q := by rw [join, if_pos h]
    exact hjoin.symm ▸ List.suffix_refl q.bytes
  · rcases bytes_join (Bool.eq_false_iff.mpr h) p with ⟨hbytes, -⟩ | ⟨hbytes, -⟩
    · rw [hbytes]
      exact List.suffix_append _ _
    · rw [hbytes]
      exact (List.suffix_cons slash _).trans (List.suffix_append _ _)

/-- Joining a name is going one step further. -/
theorem steps_join {name : RawText} (h : IsName name) (p : Path) :
    (p.join ⟨name⟩).steps = p.steps ++ [.into name] := by
  rw [steps_eq, steps_eq]
  rcases bytes_join h.not_isAbsolute p with ⟨hbytes, hempty | hslash⟩ | ⟨hbytes, -⟩
  · -- nothing stands in front of the name
    rw [hbytes, hempty]
    exact h.stepsOf
  · -- a slash that stands there already makes no step
    obtain ⟨t, ht⟩ := List.getLast?_eq_some_iff.mp hslash
    have hnone : Path.stepsOf [] = [] := rfl
    rw [hbytes, bytes_mk name, ht, List.append_assoc, List.singleton_append, stepsOf_append,
      stepsOf_append, hnone, List.append_nil, h.stepsOf]
  · -- a slash is put between
    rw [hbytes, bytes_mk name, stepsOf_append, h.stepsOf]

theorem isAbsolute_join {name : RawText} (h : IsName name) (p : Path) :
    (p.join ⟨name⟩).isAbsolute = p.isAbsolute := by
  have hhead := mt isAbsolute_iff.mpr (Bool.eq_false_iff.mp h.not_isAbsolute)
  rw [Bool.eq_iff_iff, isAbsolute_iff, isAbsolute_iff]
  cases ht : p.bytes with
  | nil =>
    -- joined to nothing, the name stays relative
    rcases bytes_join h.not_isAbsolute p with ⟨hbytes, -⟩ | ⟨-, hne⟩
    · rw [hbytes, ht]
      exact iff_of_false hhead (by simp)
    · exact absurd ht hne
  | cons b t =>
    rcases bytes_join h.not_isAbsolute p with ⟨hbytes, -⟩ | ⟨hbytes, -⟩ <;> simp [hbytes, ht]

/-! ## Paths that are texts -/

/-- The path is a text, so that the text that is shown for it is a path to the same place. -/
def IsText (p : Path) : Prop := p.raw.IsText

theorem mk_text_iff {p : Path} : (⟨p.text⟩ : Path) = p ↔ p.IsText :=
  ⟨fun h => RawText.ofText_text_iff.mp (congrArg raw h),
    fun h => congrArg mk (RawText.ofText_text_iff.mpr h)⟩

theorem isText_join {p q : Path} (hp : p.IsText) (hq : q.IsText) : (p.join q).IsText := by
  rw [join]
  split
  · exact hq
  · split
    · exact hp.append hq
    · exact (hp.append ⟨"/", rfl⟩).append hq

/-- What is put behind a path that is no text does not make it one. -/
theorem isText_of_join {p q : Path} (hq : q.isAbsolute = false) (h : (p.join q).IsText) :
    p.IsText := by
  have hcut {t rest : List UInt8} (ht : (p.join q).bytes = t ++ slash :: rest) :
      (⟨t⟩ : RawText).IsText := by
    have hraw : (p.join q).raw = ⟨t ++ slash :: rest⟩ := congrArg RawText.mk ht
    rw [IsText, hraw] at h
    exact RawText.isText_of_append (c := '/') (by decide) h
  rcases bytes_join hq p with ⟨hbytes, hempty | hslash⟩ | ⟨hbytes, -⟩
  · rw [eq_empty hempty]
    exact ⟨"", rfl⟩
  · -- it is a text up to its last slash, hence with this slash as well
    obtain ⟨t, ht⟩ := List.getLast?_eq_some_iff.mp hslash
    have htext : (⟨t ++ [slash]⟩ : RawText).IsText :=
      (hcut (by rw [hbytes, ht, List.append_assoc]; rfl)).append ⟨"/", rfl⟩
    rw [← ht] at htext
    exact htext
  · exact hcut hbytes

/-! ## Cutting off the last piece -/

theorem prefix_trimVoid (pieces : List (List UInt8)) : trimVoid pieces <+: pieces := by
  have h := (List.dropWhile_suffix isVoid (l := pieces.reverse)).reverse
  rwa [List.reverse_reverse] at h

/-- What is left ends in a piece that names something. -/
theorem not_isVoid_of_trimVoid {pieces kept : List (List UInt8)} {piece : List UInt8}
    (h : trimVoid pieces = kept ++ [piece]) : isVoid piece = false := by
  have hrev : pieces.reverse.dropWhile isVoid = piece :: kept.reverse := by
    rw [← List.reverse_inj, List.reverse_cons, List.reverse_reverse]
    exact h
  have hhead := List.head?_dropWhile_not isVoid pieces.reverse
  rw [hrev] at hhead
  exact hhead

theorem movesOf_trimVoid (pieces : List (List UInt8)) :
    movesOf (trimVoid pieces) = movesOf pieces := by
  -- what is trimmed are the last pieces, and all of them are void
  have hsplit : pieces = trimVoid pieces ++ (pieces.reverse.takeWhile isVoid).reverse := by
    rw [trimVoid, ← List.reverse_append, List.takeWhile_append_dropWhile, List.reverse_reverse]
  have hvoid : movesOf (pieces.reverse.takeWhile isVoid).reverse = [] := by
    rw [movesOf, List.filter_eq_nil_iff.mpr, List.map_nil]
    intro piece hmem
    simp [List.mem_takeWhile_imp (List.mem_reverse.mp hmem)]
  conv =>
    rhs
    rw [hsplit]
  rw [movesOf_append, hvoid, List.append_nil]

theorem bytes_eq_joinSlashes (p : Path) :
    p.bytes = p.parts.front ++ joinSlashes p.parts.pieces := by
  rw [parts]
  split
  · next h => rw [h, joinSlashes_splitSlashes]; rfl
  · next h => rw [h]; rfl
  · next h => rw [h, joinSlashes_splitSlashes]; rfl
  · rw [joinSlashes_splitSlashes]; rfl

theorem parts_cases (p : Path) : (∃ t, p.parts = ⟨[slash], splitSlashes t⟩) ∨
    p.parts = ⟨[dot], []⟩ ∨ (∃ t, p.parts = ⟨[dot], [] :: splitSlashes t⟩) ∨
    ∃ t, p.parts = ⟨[], splitSlashes t⟩ := by
  rw [parts]
  split
  · next t _ => exact Or.inl ⟨t, rfl⟩
  · exact Or.inr (Or.inl rfl)
  · next t _ => exact Or.inr (Or.inr (Or.inl ⟨t, rfl⟩))
  · exact Or.inr (Or.inr (Or.inr ⟨_, rfl⟩))

/-- What the beginning of a path prescribes, cut between two pieces. -/
theorem moves_beginning {p : Path} {pieces : List (List UInt8)} (h : pieces <+: p.parts.pieces) :
    moves ⟨⟨p.parts.front ++ joinSlashes pieces⟩⟩ = movesOf pieces := by
  have hsplit : ∀ {t pieces}, pieces ≠ [] → pieces <+: splitSlashes t →
      splitSlashes (joinSlashes pieces) = pieces := fun hne h =>
    splitSlashes_joinSlashes hne fun piece hmem => not_mem_of_mem_splitSlashes (h.subset hmem)
  rw [moves_eq, bytes_mk]
  by_cases hne : pieces = []
  · -- nothing is left but the front, which makes no moves
    subst hne
    rw [joinSlashes, List.append_nil, parts]
    split <;> rfl
  · -- by the form of the path, which says how its pieces come about
    rcases parts_cases p with ⟨t, hp⟩ | hp | ⟨t, hp⟩ | ⟨t, hp⟩ <;> rw [hp] at h ⊢
    · rw [List.singleton_append, splitSlashes_slash, hsplit hne h, movesOf_cons_of_isVoid (by rfl)]
    · exact absurd (List.prefix_nil.mp h) hne
    · -- after the dot comes a slash, and with it a piece that is empty
      rcases List.prefix_cons_iff.mp h with rfl | ⟨rest, rfl, hrest⟩
      · exact absurd rfl hne
      · by_cases hr : rest = []
        · subst hr
          rfl
        · have htext : [dot] ++ joinSlashes ([] :: rest) = [dot] ++ slash :: joinSlashes rest := by
            rw [joinSlashes_cons _ hr, List.nil_append]
          rw [htext, splitSlashes_append, hsplit hr hrest]
          rfl
    · rw [List.nil_append, hsplit hne h]

/-- What is cut off, and what is left. -/
theorem exists_of_parent? {p q : Path} (h : p.parent? = some q) (hq : q.bytes ≠ []) :
    ∃ kept piece, trimVoid p.parts.pieces = kept ++ [piece] ∧
      q = ⟨⟨p.parts.front ++ joinSlashes (trimVoid kept)⟩⟩ := by
  rw [parent?] at h
  split at h
  · split at h
    · cases h
      exact absurd rfl hq
    · cases h
  · next hne =>
    cases h
    exact ⟨_, _, (List.dropLast_concat_getLast hne).symm, rfl⟩

theorem prefix_pieces {p : Path} {kept : List (List UInt8)} {piece : List UInt8}
    (h : trimVoid p.parts.pieces = kept ++ [piece]) : trimVoid kept <+: p.parts.pieces :=
  (prefix_trimVoid kept).trans ((List.prefix_append kept [piece]).trans (h ▸ prefix_trimVoid _))

/-- The last step is gone, unless nothing is left. -/
theorem moves_parent {p q : Path} (h : p.parent? = some q) (hq : q.bytes ≠ []) :
    ∃ step, p.moves = q.moves ++ [step] := by
  obtain ⟨kept, piece, hpieces, rfl⟩ := exists_of_parent? h hq
  refine ⟨stepOf piece, ?_⟩
  rw [moves_beginning (prefix_pieces hpieces), movesOf_trimVoid, moves_eq_parts,
    ← movesOf_trimVoid p.parts.pieces, hpieces, movesOf_append,
    movesOf_cons (not_isVoid_of_trimVoid hpieces)]
  rfl

/-- What is left by cutting prescribes the first of the steps. -/
theorem moves_prefix_of_mem_ancestors {p q : Path} {bound : Nat} (h : q ∈ ancestors.go bound p) :
    q.moves <+: p.moves := by
  induction bound generalizing p with
  | zero => cases h
  | succ bound ih =>
    rw [ancestors.go] at h
    split at h
    · next parent hparent =>
      -- the first one is the path itself, the others are those of its parent
      rcases List.mem_cons.mp h with rfl | h
      · exact List.prefix_refl _
      · -- the parent is empty, and has none
        by_cases hempty : parent.bytes = []
        · obtain rfl : parent = ⟨""⟩ := eq_empty hempty
          cases bound <;> cases h
        · obtain ⟨step, hstep⟩ := moves_parent hparent hempty
          exact (ih h).trans ⟨[step], hstep.symm⟩
    · cases h

/-- A path is above another one if it is its parent, or above that. -/
inductive IsAbove : Path → Path → Prop where
  | parent {p q : Path} : p.parent? = some q → IsAbove q p
  | beyond {p q r : Path} : p.parent? = some q → IsAbove r q → IsAbove r p

/-- What is left by cutting is the path itself or a path above it. -/
theorem isAbove_of_mem_ancestors {p q : Path} {bound : Nat} (h : q ∈ ancestors.go bound p) :
    q = p ∨ q.IsAbove p := by
  induction bound generalizing p with
  | zero => cases h
  | succ bound ih =>
    rw [ancestors.go] at h
    split at h
    · next parent hparent =>
      rcases List.mem_cons.mp h with rfl | h
      · exact Or.inl rfl
      · rcases ih h with rfl | habove
        · exact Or.inr (.parent hparent)
        · exact Or.inr (.beyond hparent habove)
    · cases h

/-- A path and its parent start from the same directory. -/
theorem isAbsolute_parent {p q : Path} (h : p.parent? = some q) (hq : q.bytes ≠ []) :
    q.isAbsolute = p.isAbsolute := by
  obtain ⟨kept, piece, hpieces, rfl⟩ := exists_of_parent? h hq
  -- what is left is the beginning of the bytes
  obtain ⟨t, ht⟩ : p.parts.front ++ joinSlashes (trimVoid kept) <+: p.bytes := by
    rw [bytes_eq_joinSlashes p, List.prefix_append_right_inj]
    exact prefix_joinSlashes (prefix_pieces hpieces)
  rw [Bool.eq_iff_iff, isAbsolute_iff, isAbsolute_iff, ← ht]
  cases hc : p.parts.front ++ joinSlashes (trimVoid kept) with
  | nil => exact absurd hc hq
  | cons c rest => rfl

/-! ## The last piece -/

theorem slash_of_mem_pieces {p : Path} {piece : List UInt8} (h : piece ∈ p.parts.pieces) :
    slash ∉ piece := by
  rcases parts_cases p with ⟨t, hp⟩ | hp | ⟨t, hp⟩ | ⟨t, hp⟩ <;> rw [hp] at h
  · exact not_mem_of_mem_splitSlashes h
  · cases h
  · rcases List.mem_cons.mp h with rfl | h
    · exact List.not_mem_nil
    · exact not_mem_of_mem_splitSlashes h
  · exact not_mem_of_mem_splitSlashes h

/-- A file name has no slash. -/
theorem slash_fileName? {p : Path} {name : RawText} (h : p.fileName? = some name) :
    slash ∉ name.bytes := by
  rw [fileName?] at h
  split at h
  · next piece hlast =>
    split at h
    · cases h
    · cases h
      exact slash_of_mem_pieces ((prefix_trimVoid _).subset (List.mem_of_getLast? hlast))
  · cases h

end Highlight.Path
