import Highlight.Proofs.Colour.Draws
import Highlight.Proofs.Rule.Mentions

/-!
# What chance can change

Random words are taken in one order only: first those of a cycle without a seed, then rule by rule,
and for each rule those of the letters before those of the background. A colour takes three words
if its choice is a random one and none otherwise, so that the count of words before each rule can be
told from the styles alone. Two runs on different words therefore agree in everything that does not
ask for chance, place by place.

The keywords that come before the cycle are the same in every run. Those that the cycle adds are
added at the same places under the same names, and only their colours may be different, if the
cycle has no seed.
-/

namespace Highlight

/-- How many words a colour takes. -/
def ColourChoice.words (choice : Option ColourChoice) : Nat :=
  if choice = some .random then 3 else 0

/-- What a style chooses for a role. -/
def Style.choice (style : Style) : Role → Option ColourChoice
  | .foreground => style.fields.foreground
  | .background => style.fields.background

/-- How many words the colours of a style take. -/
def Style.words (style : Style) : Nat :=
  ColourChoice.words (style.choice .foreground) + ColourChoice.words (style.choice .background)

/-- How many words the colours of keywords take. -/
def Keywords.words (keywords : Keywords) : Nat := (keywords.map (·.2.words)).sum

/-- How many words keyword lists take, apart from those of their keywords' random colours. -/
def KeywordLists.words (lists : KeywordLists) : Nat :=
  if lists.cyclic ≠ [] ∧ lists.seed = none then 3 else 0

/-- How many words are taken before the rule at place `i`, where the lists have been put in. -/
def KeywordLists.wordsBefore (lists : KeywordLists) (expanded : Keywords) (i : Nat) : Nat :=
  lists.words + Keywords.words (expanded.take i)

/-- The colour of a rule for a role. -/
def Rule.colour (rule : Rule) : Role → Option Rgb
  | .foreground => rule.foreground
  | .background => rule.background

/-- The keywords with those that are listed ahead of the cycle. -/
def Keywords.beforeCycle (keywords : Keywords) (lists : KeywordLists) : Keywords :=
  addListed (addListed keywords lists.auto (.colour .auto)) lists.random (.colour .random)

/--
Whether the colour of a keyword for a role is left to chance: its choice is a random one, or it is
a colour of a cycle without a seed.
-/
def LeftToChance (keywords : Keywords) (lists : KeywordLists) (keyword : String) (style : Style)
    (role : Role) : Prop :=
  style.choice role = some .random ∨ (role = .foreground ∧ lists.seed = none ∧
    keyword ∈ lists.cyclic ∧ keyword ∉ keywords.names ∧ keyword ∉ lists.auto ∧
    keyword ∉ lists.random)

/-- No colour is left to chance: none is a random one, and no cycle without a seed adds any. -/
def Settled (keywords : Keywords) (lists : KeywordLists) : Prop :=
  (∀ entry ∈ Keywords.beforeCycle keywords lists, ∀ role, entry.2.choice role ≠ some .random) ∧
    (lists.seed = none →
      ∀ keyword ∈ lists.cyclic, keyword ∈ (Keywords.beforeCycle keywords lists).names)

/-! ## One colour, one rule -/

theorem Style.fields_colour (choice : ColourChoice) :
    (Style.colour choice).fields = { foreground := some choice } := rfl

theorem ColourChoice.pick?_snd (choice : Option ColourChoice) (keyword : String) (role : Role)
    (e : Entropy) : (pick? choice keyword role e).2 = e.after (words choice) := by
  rcases choice with _ | choice
  · rfl
  · cases choice with
    | auto => rfl
    | random => exact congrArg Prod.snd (Rgb.draw_eq Float e)
    | literal text => rfl

theorem ColourChoice.pick?_none (keyword : String) (role : Role) (e : Entropy) :
    pick? none keyword role e = (none, e) := rfl

theorem ColourChoice.pick?_random (keyword : String) (role : Role) (e : Entropy) :
    (pick? (some .random) keyword role e).1 = some (Rgb.draw Float e).1 := rfl

theorem ColourChoice.pick?_congr {choice : Option ColourChoice} (h : choice ≠ some .random)
    (keyword : String) (role : Role) (e e' : Entropy) :
    (pick? choice keyword role e).1 = (pick? choice keyword role e').1 := by
  rcases choice with _ | choice
  · rfl
  · cases choice with
    | auto => rfl
    | random => exact absurd rfl h
    | literal text => rfl

namespace Rule

theorem make_foreground (n : Nat) (keyword : String) (style : Style) (e : Entropy) :
    (make n keyword style e).1.foreground
      = (ColourChoice.pick? (style.choice .foreground) keyword .foreground e).1 := rfl

theorem make_background (n : Nat) (keyword : String) (style : Style) (e : Entropy) :
    (make n keyword style e).1.background
      = (ColourChoice.pick? (style.choice .background) keyword .background
          (e.after (ColourChoice.words (style.choice .foreground)))).1 := by
  rw [← ColourChoice.pick?_snd _ keyword .foreground]
  rfl

theorem make_snd (n : Nat) (keyword : String) (style : Style) (e : Entropy) :
    (make n keyword style e).2 = e.after style.words := by
  have hsnd : (make n keyword style e).2
      = (ColourChoice.pick? (style.choice .background) keyword .background
          (ColourChoice.pick? (style.choice .foreground) keyword .foreground e).2).2 := rfl
  rw [hsnd, ColourChoice.pick?_snd, ColourChoice.pick?_snd, Entropy.after_after]
  rfl

/-- A choice that is not a random one has the same colour in every run. -/
theorem colour_make_congr {style : Style} {role : Role} (h : style.choice role ≠ some .random)
    (n : Nat) (keyword : String) (e e' : Entropy) :
    (make n keyword style e).1.colour role = (make n keyword style e').1.colour role := by
  cases role with
  | foreground => exact ColourChoice.pick?_congr h keyword .foreground e e'
  | background =>
    simp only [colour, make_background]
    exact ColourChoice.pick?_congr h keyword .background _ _

/-! ## Rule by rule -/

theorem makeAll_snd (n : Nat) (keywords : Keywords) (e : Entropy) :
    (makeAll n keywords e).2 = e.after keywords.words := by
  induction keywords generalizing n e with
  | nil => rfl
  | cons entry rest ih =>
    obtain ⟨keyword, style⟩ := entry
    have hsnd : (makeAll n ((keyword, style) :: rest) e).2
        = (makeAll (n + 1) rest (make n keyword style e).2).2 := rfl
    -- the words for the later rules begin after those that this one takes
    rw [hsnd, ih, make_snd, Entropy.after_after]
    rfl

/-- Each rule is made with the words that those before it have left. -/
theorem getElem?_makeAll (n i : Nat) (keywords : Keywords) (e : Entropy) :
    (makeAll n keywords e).1[i]? = keywords[i]?.map fun entry =>
      (make (n + i) entry.1 entry.2 (e.after (Keywords.words (keywords.take i)))).1 := by
  induction keywords generalizing n i e with
  | nil => rfl
  | cons entry rest ih =>
    obtain ⟨keyword, style⟩ := entry
    rw [makeAll_cons]
    cases i with
    | zero => rfl
    | succ i =>
      have hwords : Keywords.words (((keyword, style) :: rest).take (i + 1))
          = style.words + Keywords.words (rest.take i) := rfl
      rw [List.getElem?_cons_succ, List.getElem?_cons_succ, ih, make_snd, Entropy.after_after,
        hwords, Nat.add_right_comm, Nat.add_assoc]

end Rule

/-! ## Nothing taken -/

theorem KeywordLists.words_of_settled (lists : KeywordLists)
    (h : lists.cyclic = [] ∨ lists.seed ≠ none) : lists.words = 0 := by
  rw [words, if_neg]
  rintro ⟨hne, hnone⟩
  rcases h with hnil | hseed
  · exact hne hnil
  · exact hseed hnone

theorem Keywords.words_of_settled {keywords : Keywords}
    (h : ∀ entry ∈ keywords, ∀ role, entry.2.choice role ≠ some .random) :
    keywords.words = 0 := by
  unfold words
  rw [List.sum_eq_zero_iff_forall_eq_nat]
  intro k hk
  obtain ⟨entry, hentry, rfl⟩ := List.mem_map.mp hk
  rw [Style.words, ColourChoice.words, if_neg (h entry hentry _), ColourChoice.words,
    if_neg (h entry hentry _)]

/-! ## The keywords of two runs -/

namespace Keywords

theorem withLists_eq_putAllNew (keywords : Keywords) (lists : KeywordLists) (e : Entropy) :
    (withLists keywords lists e).1 = Table.putAllNew (beforeCycle keywords lists)
      (ofCycle lists.cyclic (Cycle.drawColours Float lists.cyclic.length lists.seed e).1) := by
  rw [withLists_eq_foldl]
  rfl

theorem withLists_snd (keywords : Keywords) (lists : KeywordLists) (e : Entropy) :
    (withLists keywords lists e).2 = e.after lists.words := by
  unfold withLists KeywordLists.words
  by_cases hc : lists.cyclic = []
  · rw [if_pos hc, if_neg (fun h => h.1 hc)]
    rfl
  · rw [if_neg hc]
    have hdraw := Cycle.drawColours_snd Float lists.cyclic.length lists.seed e
    simpa [Cycle.words, hc] using hdraw

theorem mem_names_beforeCycle {keywords : Keywords} {lists : KeywordLists} {keyword : String} :
    keyword ∈ (beforeCycle keywords lists).names
      ↔ keyword ∈ keywords.names ∨ keyword ∈ lists.auto ∨ keyword ∈ lists.random := by
  rw [beforeCycle, addListed, Table.mem_names_putAllNew, addListed, Table.mem_names_putAllNew,
    ← ofList, ← ofList, names_ofList, names_ofList, or_assoc]

theorem names_withLists_congr (keywords : Keywords) (lists : KeywordLists) (e e' : Entropy) :
    (withLists keywords lists e).1.names = (withLists keywords lists e').1.names := by
  rw [withLists_eq_putAllNew, withLists_eq_putAllNew]
  apply Table.names_putAllNew_congr rfl
  rw [names_ofCycle (Cycle.length_drawColours Float _ _ _),
    names_ofCycle (Cycle.length_drawColours Float _ _ _)]

/-- The keywords of a run are those that come before the cycle and those that the cycle adds. -/
theorem exists_withLists_eq_append (keywords : Keywords) (lists : KeywordLists) (e : Entropy) :
    ∃ added, (withLists keywords lists e).1 = beforeCycle keywords lists ++ added ∧
      ∀ entry ∈ added, entry.1 ∈ lists.cyclic ∧ entry.1 ∉ (beforeCycle keywords lists).names ∧
        ∃ c : Rgb, entry.2 = .colour (.literal c.text) := by
  obtain ⟨added, heq, hadded⟩ := Table.exists_putAllNew_eq_append (beforeCycle keywords lists)
    (ofCycle lists.cyclic (Cycle.drawColours Float lists.cyclic.length lists.seed e).1)
  refine ⟨added, (withLists_eq_putAllNew keywords lists e).trans heq, ?_⟩
  intro entry hentry
  obtain ⟨hmem, hnew⟩ := hadded entry hentry
  obtain ⟨hcyclic, hstyle⟩ := List.of_mem_zip hmem
  obtain ⟨c, _, hc⟩ := List.mem_map.mp hstyle
  exact ⟨hcyclic, hnew, c, hc.symm⟩

/--
At each place two runs have the same keyword, and the same style unless it is one that a cycle
without a seed has added, which is then a literal colour in both.
-/
theorem withLists_place {keywords : Keywords} {lists : KeywordLists} {e e' : Entropy} {i : Nat}
    {entry entry' : String × Style} (h : (withLists keywords lists e).1[i]? = some entry)
    (h' : (withLists keywords lists e').1[i]? = some entry') :
    entry.1 = entry'.1 ∧ (entry.2 = entry'.2 ∨
      (lists.seed = none ∧ entry.1 ∈ lists.cyclic ∧
        entry.1 ∉ (beforeCycle keywords lists).names ∧
        ∃ c c' : Rgb, entry.2 = .colour (.literal c.text) ∧
          entry'.2 = .colour (.literal c'.text))) := by
  have hname : entry.1 = entry'.1 := by
    have hnames := congrArg (·[i]?) (names_withLists_congr keywords lists e e')
    simpa [Table.names, h, h'] using hnames
  refine ⟨hname, ?_⟩
  cases hseed : lists.seed with
  | some seed =>
    -- the cycle has the same colours in both runs, and so have all entries
    rw [withLists_eq_putAllNew, hseed, Cycle.drawColours_some Float _ seed e e', ← hseed,
      ← withLists_eq_putAllNew, h'] at h
    exact Or.inl (congrArg Prod.snd (Option.some.inj h)).symm
  | none =>
    -- the cycle adds its colours behind what both runs have in common
    obtain ⟨added, heq, hadded⟩ := exists_withLists_eq_append keywords lists e
    obtain ⟨added', heq', hadded'⟩ := exists_withLists_eq_append keywords lists e'
    rw [heq] at h
    rw [heq'] at h'
    rcases Nat.lt_or_ge i (beforeCycle keywords lists).length with hlt | hge
    · -- a place ahead of the cycle has the same entry in both
      rw [List.getElem?_append_left hlt] at h h'
      rw [h] at h'
      exact Or.inl (congrArg Prod.snd (Option.some.inj h'))
    · -- a place of the cycle has a literal colour in both, but maybe another one
      rw [List.getElem?_append_right hge] at h h'
      obtain ⟨hcyclic, hnew, c, hc⟩ := hadded entry (List.mem_of_getElem? h)
      obtain ⟨_, _, c', hc'⟩ := hadded' entry' (List.mem_of_getElem? h')
      exact Or.inr ⟨rfl, hcyclic, hnew, c, c', hc, hc'⟩

theorem length_withLists_congr (keywords : Keywords) (lists : KeywordLists) (e e' : Entropy) :
    (withLists keywords lists e).1.length = (withLists keywords lists e').1.length := by
  have hnames := congrArg List.length (names_withLists_congr keywords lists e e')
  rwa [Table.names, Table.names, List.length_map, List.length_map] at hnames

/-- How many words the styles take does not depend on the words. -/
theorem words_withLists_congr (keywords : Keywords) (lists : KeywordLists) (e e' : Entropy) :
    Keywords.words (withLists keywords lists e).1
      = Keywords.words (withLists keywords lists e').1 := by
  unfold Keywords.words
  congr 1
  apply List.ext_getElem
  · rw [List.length_map, List.length_map, length_withLists_congr keywords lists e e']
  intro i hi hi'
  rw [List.length_map] at hi hi'
  simp only [List.getElem_map]
  -- entry by entry, since literal colours take no words, whichever they are
  rcases (withLists_place (List.getElem?_eq_getElem hi) (List.getElem?_eq_getElem hi')).2
    with hsame | ⟨_, _, _, c, c', hc, hc'⟩
  · rw [hsame]
  · rw [hc, hc']
    rfl

end Keywords

namespace Rule

/-- Two rules that are the same but for colours that are left to chance. -/
structure SameButFor (chance : Role → Prop) (rule rule' : Rule) : Prop where
  keyword : rule.keyword = rule'.keyword
  pattern : rule.pattern = rule'.pattern
  identifier : rule.identifier = rule'.identifier
  font : rule.font = rule'.font
  colour : ∀ role, ¬chance role → rule.colour role = rule'.colour role

theorem SameButFor.eq {chance : Role → Prop} {rule rule' : Rule}
    (h : SameButFor chance rule rule') (hnone : ∀ role, ¬chance role) : rule = rule' := by
  obtain ⟨hkeyword, hpattern, hidentifier, hfont, hcolour⟩ := h
  have hforeground : rule.foreground = rule'.foreground := hcolour .foreground (hnone _)
  have hbackground : rule.background = rule'.background := hcolour .background (hnone _)
  cases rule
  cases rule'
  dsimp only at *
  subst hkeyword hpattern hidentifier hfont hforeground hbackground
  rfl

theorem getElem?_batch (keywords : Keywords) (lists : KeywordLists) (n i : Nat) (e : Entropy) :
    (batch keywords lists n e).rules[i]? = (Keywords.withLists keywords lists e).1[i]?.map
      fun entry => (make (n + i) entry.1 entry.2
        (e.after (lists.wordsBefore (Keywords.withLists keywords lists e).1 i))).1 := by
  have hrules : (batch keywords lists n e).rules
      = (makeAll n (Keywords.withLists keywords lists e).1
          (Keywords.withLists keywords lists e).2).1 := rfl
  rw [hrules, getElem?_makeAll, Keywords.withLists_snd, Entropy.after_after]
  rfl

theorem batch_entropy (keywords : Keywords) (lists : KeywordLists) (n : Nat) (e : Entropy) :
    (batch keywords lists n e).entropy
      = e.after (lists.words + Keywords.words (Keywords.withLists keywords lists e).1) := by
  have hentropy : (batch keywords lists n e).entropy
      = (makeAll n (Keywords.withLists keywords lists e).1
          (Keywords.withLists keywords lists e).2).2 := rfl
  rw [hentropy, makeAll_snd, Keywords.withLists_snd, Entropy.after_after]

theorem length_batch (keywords : Keywords) (lists : KeywordLists) (n : Nat) (e : Entropy) :
    (batch keywords lists n e).rules.length = (Keywords.withLists keywords lists e).1.length := by
  have hkeywords := congrArg List.length
    (keywords_makeAll n (Keywords.withLists keywords lists e).1
      (Keywords.withLists keywords lists e).2)
  rwa [Table.names, List.length_map, List.length_map] at hkeywords

/-- Rules with the same number and keyword differ in what is left to chance only, if styles do. -/
theorem sameButFor_make {keywords : Keywords} {lists : KeywordLists} {keyword : String}
    {style style' : Style} (hstyle : style = style' ∨ (lists.seed = none ∧
      keyword ∈ lists.cyclic ∧ keyword ∉ (Keywords.beforeCycle keywords lists).names ∧
      ∃ c c' : Rgb, style = .colour (.literal c.text) ∧ style' = .colour (.literal c'.text)))
    (n : Nat) (e e' : Entropy) : SameButFor (LeftToChance keywords lists keyword style)
      (make n keyword style e).1 (make n keyword style' e').1 := by
  rcases hstyle with hsame | ⟨hseed, hcyclic, hnew, c, c', hc, hc'⟩
  · -- the same style, so that only random colours may differ
    subst hsame
    refine ⟨?_, ?_, ?_, ?_, ?_⟩
    · rw [make_keyword, make_keyword]
    · rw [make_pattern, make_pattern]
    · rw [make_identifier, make_identifier]
    · rw [make_font, make_font]
    · intro role hchance
      exact colour_make_congr (fun hrandom => hchance (Or.inl hrandom)) _ _ _ _
  · -- both styles are bare colours, so that all but the foreground agrees
    subst hc hc'
    refine ⟨?_, ?_, ?_, ?_, ?_⟩
    · rw [make_keyword, make_keyword]
    · rw [make_pattern, make_pattern, Style.fields_colour, Style.fields_colour]
    · rw [make_identifier, make_identifier]
    · rw [make_font, make_font, Style.fields_colour, Style.fields_colour]
    · intro role hchance
      cases role with
      | foreground =>
        -- the colour of the letters is the one that the cycle gives
        rw [Keywords.mem_names_beforeCycle, not_or, not_or] at hnew
        exact absurd (Or.inr ⟨rfl, hseed, hcyclic, hnew⟩) hchance
      | background =>
        -- and no cycle gives a background
        simp only [colour, make_background, Style.choice, Style.fields_colour,
          ColourChoice.pick?_none]

/-- Two rules at the same place of two runs differ in what is left to chance only. -/
theorem sameButFor_batch {keywords : Keywords} {lists : KeywordLists} {n i : Nat} {e e' : Entropy}
    {entry : String × Style} {rule rule' : Rule}
    (hentry : (Keywords.withLists keywords lists e).1[i]? = some entry)
    (h : (batch keywords lists n e).rules[i]? = some rule)
    (h' : (batch keywords lists n e').rules[i]? = some rule') :
    SameButFor (LeftToChance keywords lists entry.1 entry.2) rule rule' := by
  -- the entry at this place has the same keyword in both runs
  rw [getElem?_batch, hentry, Option.map_some] at h
  rw [getElem?_batch, Option.map_eq_some_iff] at h'
  obtain ⟨entry', hentry', hrule'⟩ := h'
  have hrule := Option.some.inj h
  obtain ⟨keyword, style⟩ := entry
  obtain ⟨keyword', style'⟩ := entry'
  obtain ⟨hname, hstyle⟩ := Keywords.withLists_place hentry hentry'
  dsimp only at hname hstyle hrule hrule'
  subst hname hrule hrule'
  exact sameButFor_make hstyle _ _ _

theorem length_batch_congr (keywords : Keywords) (lists : KeywordLists) (n : Nat)
    (e e' : Entropy) :
    (batch keywords lists n e).rules.length = (batch keywords lists n e').rules.length := by
  rw [length_batch, length_batch, Keywords.length_withLists_congr keywords lists e e']

/-- A random colour of the letters is made of the words that the rules before it have left. -/
theorem foreground_batch {keywords : Keywords} {lists : KeywordLists} {n i : Nat} {e : Entropy}
    {keyword : String} {style : Style} {rule : Rule}
    (hentry : (Keywords.withLists keywords lists e).1[i]? = some (keyword, style))
    (hrule : (batch keywords lists n e).rules[i]? = some rule)
    (hrandom : style.choice .foreground = some .random) :
    rule.foreground = some (Rgb.draw Float
      (e.after (lists.wordsBefore (Keywords.withLists keywords lists e).1 i))).1 := by
  rw [getElem?_batch, hentry, Option.map_some] at hrule
  rw [← Option.some.inj hrule, make_foreground, hrandom, ColourChoice.pick?_random]

/-- A random colour of the background comes after that of the letters. -/
theorem background_batch {keywords : Keywords} {lists : KeywordLists} {n i : Nat} {e : Entropy}
    {keyword : String} {style : Style} {rule : Rule}
    (hentry : (Keywords.withLists keywords lists e).1[i]? = some (keyword, style))
    (hrule : (batch keywords lists n e).rules[i]? = some rule)
    (hrandom : style.choice .background = some .random) :
    rule.background = some (Rgb.draw Float
      (e.after (lists.wordsBefore (Keywords.withLists keywords lists e).1 i
        + ColourChoice.words (style.choice .foreground)))).1 := by
  rw [getElem?_batch, hentry, Option.map_some] at hrule
  rw [← Option.some.inj hrule, make_background, hrandom, ColourChoice.pick?_random,
    Entropy.after_after]

/-- Where nothing is left to chance, the rules do not depend on the words. -/
theorem rules_batch_of_not_leftToChance {keywords : Keywords} {lists : KeywordLists}
    {e : Entropy} (h : ∀ entry ∈ (Keywords.withLists keywords lists e).1, ∀ role,
      ¬LeftToChance keywords lists entry.1 entry.2 role) (n : Nat) (e' : Entropy) :
    (batch keywords lists n e).rules = (batch keywords lists n e').rules := by
  apply List.ext_getElem (length_batch_congr keywords lists n e e')
  intro i hi hi'
  have hplace : i < (Keywords.withLists keywords lists e).1.length := by
    rwa [length_batch] at hi
  have hsame := sameButFor_batch (List.getElem?_eq_getElem hplace) (List.getElem?_eq_getElem hi)
    (List.getElem?_eq_getElem hi')
  exact hsame.eq (h _ (List.getElem_mem _))

theorem rules_batch_congr {keywords : Keywords} {lists : KeywordLists} {e e' : Entropy}
    (hcycle : lists.cyclic = [] ∨ lists.seed ≠ none)
    (hrandom : ∀ entry ∈ (Keywords.withLists keywords lists e).1, ∀ role,
      entry.2.choice role ≠ some .random) (n : Nat) :
    (batch keywords lists n e).rules = (batch keywords lists n e').rules := by
  refine rules_batch_of_not_leftToChance ?_ n e'
  rintro entry hentry role (hchance | ⟨_, hnone, hcyclic, _⟩)
  · -- no choice is a random one
    exact hrandom entry hentry role hchance
  · rcases hcycle with hnil | hseed
    · -- there is no cycle, or it has a seed
      rw [hnil] at hcyclic
      exact List.not_mem_nil hcyclic
    · exact hseed hnone

/-- Settled keywords make the same rules in every run. -/
theorem rules_batch_of_settled {keywords : Keywords} {lists : KeywordLists}
    (h : Settled keywords lists) (n : Nat) (e e' : Entropy) :
    (batch keywords lists n e).rules = (batch keywords lists n e').rules := by
  refine rules_batch_of_not_leftToChance ?_ n e'
  obtain ⟨added, heq, hadded⟩ := Keywords.exists_withLists_eq_append keywords lists e
  intro entry hentry role hchance
  rw [heq, List.mem_append] at hentry
  rcases hchance with hrandom | ⟨_, hseed, hcyclic, hnew⟩
  · -- a random choice would stand among the settled keywords
    rcases hentry with hbefore | hcycle
    · exact h.1 entry hbefore role hrandom
    · -- the colours of the cycle are literal ones
      obtain ⟨_, _, c, hc⟩ := hadded entry hcycle
      rw [hc] at hrandom
      cases role <;> cases hrandom
  · -- a keyword that the cycle adds would be new, but all of them are there
    have hbefore := h.2 hseed entry.1 hcyclic
    rw [Keywords.mem_names_beforeCycle] at hbefore
    simp only [hnew, or_self] at hbefore

/--
**Chance reaches only what asks for it.** Let the same keywords and lists be made into rules twice,
on any two streams of random words. There are as many rules both times, one for each keyword, and
rule by rule they have the same keyword, pattern, identifier and font style, and the same colours
but for those of a random choice and those that a cycle without a seed gives. A cycle without a seed
is the first to take words, three of them; then each random choice takes three, rule by rule, the
letters before the background; and no others are taken. So if nothing asks for chance, no word is
taken and the rules are the same.
-/
theorem chance_reaches_what_asks_for_it (keywords : Keywords) (lists : KeywordLists) (n : Nat)
    (e e' : Entropy) :
    let expanded := (Keywords.withLists keywords lists e).1
    let made := batch keywords lists n e
    let made' := batch keywords lists n e'
    made.rules.length = expanded.length ∧ made'.rules.length = expanded.length ∧
      (∀ i keyword style rule rule', expanded[i]? = some (keyword, style) →
        made.rules[i]? = some rule → made'.rules[i]? = some rule' →
          SameButFor (LeftToChance keywords lists keyword style) rule rule' ∧
          (style.choice .foreground = some .random →
            rule.foreground
              = some (Rgb.draw Float (e.after (lists.wordsBefore expanded i))).1) ∧
          (style.choice .background = some .random →
            rule.background = some (Rgb.draw Float (e.after (lists.wordsBefore expanded i
              + ColourChoice.words (style.choice .foreground)))).1)) ∧
      (lists.seed = none → expanded = Table.putAllNew (Keywords.beforeCycle keywords lists)
        (Keywords.ofCycle lists.cyclic ((Cycle.hues lists.cyclic.length
          (Hsv.ofRgb (Rgb.draw Float e).1 : Hsv Float).hue).map Cycle.colour))) ∧
      made.entropy = e.after (lists.words + Keywords.words expanded) ∧
      made'.entropy = e'.after (lists.words + Keywords.words expanded) ∧
      (lists.cyclic = [] ∨ lists.seed ≠ none →
        (∀ entry ∈ expanded, ∀ role, entry.2.choice role ≠ some .random) →
          made.rules = made'.rules ∧ made.entropy = e ∧ made'.entropy = e') := by
  intro expanded made made'
  have hentropy : made.entropy = e.after (lists.words + Keywords.words expanded) :=
    batch_entropy keywords lists n e
  have hentropy' : made'.entropy = e'.after (lists.words + Keywords.words expanded) := by
    rw [Keywords.words_withLists_congr keywords lists e e']
    exact batch_entropy keywords lists n e'
  refine ⟨length_batch keywords lists n e, ?_, ?_, ?_, hentropy, hentropy', ?_⟩
  · -- both runs have a rule for each keyword
    rw [length_batch_congr keywords lists n e' e]
    exact length_batch keywords lists n e
  · intro i keyword style rule rule' hentry hrule hrule'
    exact ⟨sameButFor_batch hentry hrule hrule', foreground_batch hentry hrule,
      background_batch hentry hrule⟩
  · -- a cycle without a seed goes round from a random colour
    intro hseed
    rw [← Cycle.drawColours_none, ← hseed]
    exact Keywords.withLists_eq_putAllNew keywords lists e
  · -- where nobody asks for words, none are taken
    intro hcycle hrandom
    rw [lists.words_of_settled hcycle, Keywords.words_of_settled hrandom] at hentropy hentropy'
    exact ⟨rules_batch_congr hcycle hrandom n, hentropy, hentropy'⟩

/--
A cycle without a seed, a keyword of which has a style of its own, random letters and a random
background, and a fixed colour: nine words are taken, and the fixed colour stays.
-/
theorem chance_reaches_what_asks_for_it_of_three_styles :
    let style := Style.full { foreground := some .random, background := some .random }
    let keywords : Keywords := [("a", .colour (.literal "red")), ("b", style)]
    let lists : KeywordLists := { cyclic := ["c", "a"] }
    let e : Entropy := ⟨fun k => UInt32.ofNat k, 0⟩
    let e' : Entropy := ⟨fun _ => 7, 2⟩
    (batch keywords lists 0 e).entropy.drawn = 9 ∧
      (batch keywords lists 0 e').entropy.drawn = 11 ∧
      (∃ rule rule', (batch keywords lists 0 e).rules[0]? = some rule ∧
        (batch keywords lists 0 e').rules[0]? = some rule' ∧ rule.foreground = rule'.foreground) ∧
      ∃ rule, (batch keywords lists 0 e).rules[1]? = some rule ∧
        rule.foreground = some (Rgb.draw Float ⟨e.word, 3⟩).1 ∧
        rule.background = some (Rgb.draw Float ⟨e.word, 6⟩).1 := by
  intro style keywords lists e e'
  obtain ⟨hlength, hlength', hrules, _, hentropy, hentropy', _⟩ :=
    chance_reaches_what_asks_for_it keywords lists 0 e e'
  have hfirst : (Keywords.withLists keywords lists e).1[0]?
      = some ("a", .colour (.literal "red")) := rfl
  have hsecond : (Keywords.withLists keywords lists e).1[1]? = some ("b", style) := rfl
  have hwords : Keywords.words (Keywords.withLists keywords lists e).1 = 6 := by decide +kernel
  have hthree : (Keywords.withLists keywords lists e).1.length = 3 := by decide +kernel
  have hlists : lists.words = 3 := by decide
  have hplace : ∀ i, i < 3 → ∃ rule rule', (batch keywords lists 0 e).rules[i]? = some rule ∧
      (batch keywords lists 0 e').rules[i]? = some rule' := by
    intro i hi
    exact ⟨_, _, List.getElem?_eq_getElem (by omega), List.getElem?_eq_getElem (by omega)⟩
  rw [hlists, hwords] at hentropy hentropy'
  refine ⟨?_, ?_, ?_, ?_⟩
  · rw [hentropy]
    rfl
  · rw [hentropy']
    rfl
  · -- the fixed colour, which is no colour of the cycle
    obtain ⟨rule, rule', hrule, hrule'⟩ := hplace 0 (by decide)
    refine ⟨rule, rule', hrule, hrule', ?_⟩
    apply (hrules 0 _ _ _ _ hfirst hrule hrule').1.colour .foreground
    rintro (hrandom | ⟨_, _, _, hown, _⟩)
    · exact absurd hrandom (by decide)
    · exact hown (by decide)
  · -- six words for the second rule, after the three of the cycle
    obtain ⟨rule, rule', hrule, hrule'⟩ := hplace 1 (by decide)
    have hcolours := (hrules 1 _ _ _ _ hsecond hrule hrule').2
    have hbefore : lists.wordsBefore (Keywords.withLists keywords lists e).1 1 = 3 := rfl
    rw [hbefore] at hcolours
    exact ⟨rule, hrule, hcolours.1 rfl, hcolours.2 rfl⟩

end Rule

end Highlight
