import Highlight.Proofs.Json.Replaced
import Highlight.Proofs.Rule.Batch
import Highlight.Proofs.SyntaxFiles.Grammar

/-!
# When a grammar can be extended, and to what

Whether a grammar can be extended is a question to the grammar and the scope alone: `obstacle?` says
what is in the way, and the rules have no say in it. If nothing is, the extended grammar is told in
full, by the list that has grown, the name, the scope and the definitions; that the list may stand
among the definitions is why the definitions are told after it.
-/

namespace Highlight.SyntaxFiles

open Json (Missing ReplacedAt)

variable {grammar grammar' node : Json} {scheme scope segment : String} {rest : List String}
  {members table : Table Json} {patterns references : List Json} {rules : List Rule}

theorem route_rulesPath (scope : String) : Json.route (rulesPath scope) = rulesRoute scope := by
  unfold rulesPath rulesRoute
  split
  · next hempty =>
    subst hempty
    rfl
  · have hdot : scope ++ ".patterns" = scope ++ "." ++ "patterns" := by
      rw [String.append_assoc]
      rfl
    have hlast : Json.route "patterns" = ["patterns"] := rfl
    rw [hdot, Json.route_append_dot, hlast]

/-- What is in the way of extending a grammar at a scope. -/
def obstacle? (grammar : Json) (scope : String) : Option Missing :=
  match grammar.follow scope with
  | .error missing => some missing
  | .ok node =>
    match (node.member? "patterns").bind Json.array? with
    | none => some ⟨"patterns", rulesPath scope⟩
    | some _ => if (definitions? grammar).isSome then none else some ⟨"repository", "repository"⟩

/-! ## The list that grows -/

/-- A rule list is found at the end of its route. -/
theorem walk_rulesRoute (hnode : grammar.follow scope = .ok node)
    (hlist : node.member? "patterns" = some (.array patterns)) :
    grammar.walk (rulesRoute scope) = .ok (.array patterns) := by
  obtain ⟨members, rfl, hget⟩ := Json.exists_object_of_member? hlist
  have hchild : (Json.object members).child? "patterns" = some (.array patterns) := hget
  have hwalk : grammar.walk (Json.route scope) = .ok (.object members) := of_mapError_ok hnode
  rw [rulesRoute, Json.walk_append, hwalk]
  exact Json.walk_cons hchild []

/-- Where there is a rule list, references are added to it and to nothing else. -/
theorem exists_addReferences (hnode : grammar.follow scope = .ok node)
    (hlist : node.member? "patterns" = some (.array patterns)) (references : List Json) :
    ∃ grown, addReferences grammar scope references = .ok grown ∧
      ReplacedAt (.array patterns) (.array (patterns ++ references)) (rulesRoute scope) grammar
        grown := by
  obtain ⟨grown, hgrown⟩ :=
    Json.exists_replacedAt (walk_rulesRoute hnode hlist) (.array (patterns ++ references))
  have hmodify : Json.walkModify (appendItems references) grammar (rulesRoute scope) = .ok grown :=
    Json.walkModify_ok_iff.mpr ⟨_, hgrown⟩
  refine ⟨grown, ?_, hgrown⟩
  rw [rulesRoute, ← walkModify_setMember (of_mapError_ok hnode) hlist] at hmodify
  have harray : (node.member? "patterns").bind Json.array? = some patterns := by
    rw [hlist]
    rfl
  simp only [addReferences, hnode, harray, bind, Except.bind]
  rw [Json.modify, hmodify]
  rfl

/-- A list that grows changes neither what is an object nor the names in it. -/
theorem names_object?_grown {segments : List String} {d d' : Json}
    (h : ReplacedAt (.array patterns) (.array references) segments d d') :
    d'.object?.map Table.names = d.object?.map Table.names := by
  cases segments with
  | nil => cases h; rfl
  | cons => exact h.names_object?

theorem names_definitions?_grown
    (h : ReplacedAt (.array patterns) (.array references) (segment :: rest) grammar grammar') :
    (definitions? grammar').map Table.names = (definitions? grammar).map Table.names := by
  obtain ⟨d, d', hd, hd', hset, hrest⟩ := h.exists_child?
  by_cases hrepository : segment = "repository"
  · -- the list is among the definitions, or it is where they should be
    subst hrepository
    cases grammar with
    | object members =>
      cases grammar' with
      | object members' =>
        have hold : (Json.object members).member? "repository" = some d := hd
        have hnew : (Json.object members').member? "repository" = some d' := hd'
        rw [definitions?, definitions?, hold, hnew]
        exact names_object?_grown hrest
      | _ => cases hset
    | array items =>
      rw [hset, Json.setChild]
      split <;> rfl
    | _ => cases hd
  · rw [hset, definitions?, definitions?, Json.member?_setChild_ne hrepository]

/-! ## Extending -/

theorem extendGrammar_object (members : Table Json) (scheme scope : String) (rules : List Rule) :
    extendGrammar (.object members) scheme scope rules
      = addReferences (.object (rename members scheme)) scope (rules.map reference) >>=
          fun grammar => addDefinitions grammar (rules.map (definition scheme)) := rfl

/-- What is in the way is told, whatever the rules are; if nothing is, the list grows and the
definitions are put. -/
theorem extendGrammar_cases (members : Table Json) (scheme scope : String) (rules : List Rule) :
    (∃ missing, obstacle? (.object (rename members scheme)) scope = some missing ∧
      extendGrammar (.object members) scheme scope rules = .error missing) ∨
    (obstacle? (.object (rename members scheme)) scope = none ∧
      ∃ (patterns : List Json) (grown table : Table Json),
        ReplacedAt (.array patterns) (.array (patterns ++ rules.map reference)) (rulesRoute scope)
          (.object (rename members scheme)) (.object grown) ∧
        definitions? (.object grown) = some table ∧
        extendGrammar (.object members) scheme scope rules
          = .ok (.object (grown.put "repository"
              (.object (table.putAll (rules.map (definition scheme))))))) := by
  rw [extendGrammar_object]
  generalize hroot : Json.object (rename members scheme) = root
  cases hfollow : root.follow scope with
  | error missing =>
    -- the place of the list cannot be followed
    refine .inl ⟨missing, by rw [obstacle?, hfollow], ?_⟩
    rw [addReferences, hfollow]
    rfl
  | ok node =>
    cases hlist : (node.member? "patterns").bind Json.array? with
    | none =>
      -- there is no list at the place
      refine .inl ⟨⟨"patterns", rulesPath scope⟩, by simp only [obstacle?, hfollow, hlist], ?_⟩
      simp only [addReferences, hfollow, hlist, bind, Except.bind]
    | some patterns =>
      have hobstacle : obstacle? root scope
          = if (definitions? root).isSome then none else some ⟨"repository", "repository"⟩ := by
        simp only [obstacle?, hfollow, hlist]
      obtain ⟨list, hmember, harray⟩ := Option.bind_eq_some_iff.mp hlist
      cases list <;> cases harray
      obtain ⟨grown, hadd, hgrown⟩ := exists_addReferences hfollow hmember (rules.map reference)
      -- the list stands below the root, so that the root stays an object
      obtain ⟨segment, rest, hroute⟩ := List.exists_cons_of_ne_nil
        (List.append_ne_nil_of_right_ne_nil (Json.route scope) (List.cons_ne_nil "patterns" []))
      change rulesRoute scope = segment :: rest at hroute
      have hbelow := hroute ▸ hgrown
      subst hroot
      obtain ⟨_, d', _, _, rfl, _⟩ := hbelow.exists_child?
      have hnames := names_definitions?_grown hbelow
      have hadded : addReferences (.object (rename members scheme)) scope (rules.map reference) >>=
          (fun grammar => addDefinitions grammar (rules.map (definition scheme)))
            = addDefinitions (.object ((rename members scheme).put segment d'))
                (rules.map (definition scheme)) := by
        rw [hadd]
        rfl
      rw [hadded, addDefinitions_object, hobstacle]
      cases htable : definitions? (.object ((rename members scheme).put segment d')) with
      | none =>
        -- the definitions are no object
        have hold := Option.map_eq_none_iff.mp ((congrArg _ htable).symm.trans hnames).symm
        rw [hold]
        exact .inl ⟨_, rfl, rfl⟩
      | some table =>
        have hold := Option.map_eq_some_iff.mp ((congrArg _ htable).symm.trans hnames).symm
        obtain ⟨_, hold, _⟩ := hold
        rw [hold]
        exact .inr ⟨rfl, patterns, _, table, hgrown, htable, rfl⟩

theorem extendGrammar_error_iff {missing : Missing} :
    extendGrammar (.object members) scheme scope rules = .error missing ↔
      obstacle? (.object (rename members scheme)) scope = some missing := by
  rcases extendGrammar_cases members scheme scope rules with
    ⟨found, hobstacle, herror⟩ | ⟨hnone, _, _, _, _, _, hok⟩
  · rw [hobstacle, herror, Except.error.injEq, Option.some.injEq]
  · rw [hnone, hok]
    exact ⟨nofun, nofun⟩

/-! ## A scope apart from the name

What is told of the renamed grammar is told of the grammar itself, if the scope does not start with
the two members that are set.
-/

/-- The scope starts with neither of the members that a new name goes into. -/
def ApartFromName (scope : String) : Prop :=
  ∀ segment, (Json.route scope).head? = some segment → segment ≠ "name" ∧ segment ≠ "scopeName"

theorem ApartFromName.exists_rulesRoute_eq_cons (h : ApartFromName scope) :
    ∃ segment rest, rulesRoute scope = segment :: rest ∧ "name" ≠ segment ∧
      "scopeName" ≠ segment := by
  unfold rulesRoute
  cases hroute : Json.route scope with
  | nil => exact ⟨"patterns", [], rfl, by decide, by decide⟩
  | cons segment rest =>
    obtain ⟨hname, hscopeName⟩ := h segment (by rw [hroute]; rfl)
    exact ⟨segment, rest ++ ["patterns"], rfl, hname.symm, hscopeName.symm⟩

theorem get?_rename (hname : "name" ≠ segment) (hscopeName : "scopeName" ≠ segment) :
    (rename members scheme).get? segment = members.get? segment := by
  rw [rename, Table.get?_put, if_neg hscopeName, Table.get?_put, if_neg hname]

theorem walk_rename (hname : "name" ≠ segment) (hscopeName : "scopeName" ≠ segment) :
    (Json.object (rename members scheme)).walk (segment :: rest)
      = (Json.object members).walk (segment :: rest) := by
  have hchild : (Json.object (rename members scheme)).child? segment
      = (Json.object members).child? segment := get?_rename hname hscopeName
  rw [Json.walk, Json.walk, hchild]

theorem obstacle?_rename (h : ApartFromName scope) (members : Table Json) (scheme : String) :
    obstacle? (.object (rename members scheme)) scope = obstacle? (.object members) scope := by
  unfold obstacle? Json.follow
  rw [definitions?_rename]
  cases hroute : Json.route scope with
  | nil =>
    have hpatterns : (Json.object (rename members scheme)).member? "patterns"
        = (Json.object members).member? "patterns" := get?_rename (by decide) (by decide)
    simp only [Json.walk, Except.mapError, hpatterns]
  | cons segment rest =>
    obtain ⟨hname, hscopeName⟩ := h segment (by rw [hroute]; rfl)
    rw [walk_rename hname.symm hscopeName.symm]

/-- The scope that the name of a scheme is appended to. -/
def baseScope (grammar : Json) : String :=
  ((grammar.member? "scopeName").bind Json.string?).getD "source"

/-- A list that grows in the renamed grammar grows in the grammar itself. -/
theorem exists_replacedAt_of_rename (h : ApartFromName scope) {old new : Json} {grown : Table Json}
    (hgrown : ReplacedAt old new (rulesRoute scope) (.object (rename members scheme))
      (.object grown)) : ∃ grown₀ : Table Json,
      ReplacedAt old new (rulesRoute scope) (.object members) (.object grown₀) ∧
      grown = (grown₀.put "name" (.string scheme)).put "scopeName"
        (.string (baseScope (.object members) ++ "." ++ scheme)) := by
  obtain ⟨segment, rest, hroute, hname, hscopeName⟩ := h.exists_rulesRoute_eq_cons
  rw [hroute] at hgrown ⊢
  have hwalk : (Json.object members).walk (segment :: rest) = .ok old :=
    (walk_rename hname hscopeName).symm.trans hgrown.walk_old
  obtain ⟨doc', hdoc'⟩ := Json.exists_replacedAt hwalk new
  obtain ⟨_, d', _, _, rfl, _⟩ := hdoc'.exists_child?
  refine ⟨members.put segment d', hdoc', ?_⟩
  exact Json.object.inj (hgrown.unique ((hdoc'.put hname _).put hscopeName _))

/-- Definitions that are put after those that are there hide nothing. -/
theorem walk_put_repository {added : Table Json}
    (h : (Json.object members).walk (segment :: rest) = .ok (.array patterns))
    (htable : definitions? (.object members) = some table) :
    (Json.object (members.put "repository" (.object (table ++ added)))).walk (segment :: rest)
      = .ok (.array patterns) := by
  obtain ⟨child, hc, hwalk⟩ := Json.walk_cons_ok h
  have hget : members.get? segment = some child := hc
  -- where the route goes through the definitions, the first one of a name stays the first
  by_cases hrepository : segment = "repository"
  · subst hrepository
    rw [definitions?, Json.member?_object, hget] at htable
    obtain rfl : child = .object table := by
      cases child <;> cases htable
      rfl
    have hchild : (Json.object (members.put "repository" (.object (table ++ added)))).child?
        "repository" = some (.object (table ++ added)) := by
      rw [Json.child?, Table.get?_put, if_pos rfl]
    rw [Json.walk_cons hchild]
    cases rest with
    | nil => cases hwalk
    | cons next rest =>
      obtain ⟨part, hpart, hwalk⟩ := Json.walk_cons_ok hwalk
      have hfirst : table.get? next = some part := hpart
      have hpart' : (Json.object (table ++ added)).child? next = some part := by
        rw [Json.child?, Table.get?_append, hfirst]
        rfl
      rw [Json.walk_cons hpart']
      exact hwalk
  · -- any other member of the root is not touched
    have hchild : (Json.object (members.put "repository" (.object (table ++ added)))).child?
        segment = some child := by
      rw [Json.child?, Table.get?_put, if_neg (Ne.symm hrepository)]
      exact hget
    rw [Json.walk_cons hchild]
    exact hwalk

/-- A grammar has a rule list at the scope, and room for definitions. -/
structure Extensible (grammar : Json) (scope : String) : Prop where
  /-- The grammar is an object. -/
  root : ∃ members, grammar = .object members
  /-- The scope leads to an object with a list of patterns. -/
  list : ∃ node patterns, grammar.follow scope = .ok node ∧
    node.member? "patterns" = some (.array patterns)
  /-- There is no `repository`, or it is an object. -/
  repository : ∀ d, grammar.member? "repository" = some d → ∃ table, d = .object table

theorem isSome_definitions?_iff : (definitions? grammar).isSome ↔
    ∀ d, grammar.member? "repository" = some d → ∃ table, d = .object table := by
  unfold definitions?
  cases grammar.member? "repository" with
  | none => exact ⟨fun _ => nofun, fun _ => rfl⟩
  | some d =>
    constructor
    · rintro h _ ⟨⟩
      obtain ⟨table, htable⟩ := Option.isSome_iff_exists.mp h
      cases d <;> cases htable
      exact ⟨table, rfl⟩
    · intro h
      obtain ⟨table, rfl⟩ := h d rfl
      rfl

theorem extensible_iff_obstacle? :
    Extensible (.object members) scope ↔ obstacle? (.object members) scope = none := by
  constructor
  · rintro ⟨_, ⟨node, patterns, hfollow, hlist⟩, hrepository⟩
    have harray : (node.member? "patterns").bind Json.array? = some patterns := by
      rw [hlist]
      rfl
    simp only [obstacle?, hfollow, harray, isSome_definitions?_iff.mpr hrepository, if_true]
  · intro h
    unfold obstacle? at h
    cases hfollow : (Json.object members).follow scope with
    | error missing => simp only [hfollow, reduceCtorEq] at h
    | ok node =>
      cases hlist : (node.member? "patterns").bind Json.array? with
      | none => simp only [hfollow, hlist, reduceCtorEq] at h
      | some patterns =>
        simp only [hfollow, hlist, ite_eq_left_iff, reduceCtorEq, imp_false, not_not] at h
        obtain ⟨list, hmember, harray⟩ := Option.bind_eq_some_iff.mp hlist
        cases list <;> cases harray
        exact ⟨⟨members, rfl⟩, ⟨node, patterns, hfollow, hmember⟩, isSome_definitions?_iff.mp h⟩

/--
What an extended grammar is, told from what it was. The list at the scope has grown by the
references to the rules, then the name and the scope were set and the definitions of the rules put
after those that were there. A member that was there is set at its place, any other one at the end.
-/
def IsExtension (scheme scope : String) (rules : List Rule) (grammar extended : Json) : Prop :=
  let references := rules.map fun rule =>
    Json.object [("include", .string ("#" ++ rule.identifier))]
  let definitions := rules.map fun rule =>
    (rule.identifier, Json.object [("match", .string rule.pattern),
      ("name", .string (rule.identifier ++ "." ++ scheme))])
  ∃ (patterns : List Json) (grown table : Table Json),
    ReplacedAt (.array patterns) (.array (patterns ++ references)) (rulesRoute scope)
      grammar (.object grown) ∧
    definitions? (.object grown) = some table ∧
    extended = .object (((grown.put "name" (.string scheme)).put "scopeName"
        (.string (baseScope grammar ++ "." ++ scheme))).put "repository"
          (.object (table ++ definitions))) ∧
    extended.follow (rulesPath scope) = .ok (.array (patterns ++ references))

theorem isExtension_of_extendGrammar {extended : Json} (hscope : ApartFromName scope)
    (hnodup : (rules.map (·.identifier)).Nodup)
    (hnew : ∀ rule ∈ rules, definition? grammar rule.identifier = none)
    (h : extendGrammar grammar scheme scope rules = .ok extended) :
    IsExtension scheme scope rules grammar extended := by
  obtain ⟨members, _, rfl, _, _⟩ := extendGrammar_ok h
  rcases extendGrammar_cases members scheme scope rules with
    ⟨missing, _, herror⟩ | ⟨_, patterns, grown', table, hgrown', htable', hok⟩
  · rw [herror] at h
    cases h
  · obtain rfl := Except.ok.inj (hok.symm.trans h)
    obtain ⟨grown, hgrown, rfl⟩ := exists_replacedAt_of_rename hscope hgrown'
    obtain ⟨segment, rest, hroute, _, _⟩ := hscope.exists_rulesRoute_eq_cons
    have htable : definitions? (.object grown) = some table := by
      rw [← htable', definitions?_put (by decide), definitions?_put (by decide)]
    have hput : table.putAll (rules.map (definition scheme))
        = table ++ rules.map (definition scheme) := by
      apply Table.putAll_of_not_mem
      · rw [names_definitions]
        exact hnodup
      · intro identifier hidentifier
        rw [names_definitions, List.mem_map] at hidentifier
        obtain ⟨rule, hrule, rfl⟩ := hidentifier
        -- no definition has the name of a new rule, so that each is put at the end
        -- the definitions have the names that they had before the list grew
        have hnames := names_definitions?_grown (hroute ▸ hgrown)
        rw [htable, Option.map_some, eq_comm, Option.map_eq_some_iff] at hnames
        obtain ⟨old, hold, hnames⟩ := hnames
        have hnone := hnew rule hrule
        rw [definition?_eq_bind, hold, Option.bind_some, Table.get?_eq_none_iff, hnames] at hnone
        exact hnone
    refine ⟨patterns, grown, table, hgrown, htable, ?_, ?_⟩
    · rw [hput]
      rfl
    · have hwalk := hgrown'.walk_new
      rw [hroute] at hwalk
      rw [Json.follow, route_rulesPath, hroute, hput, walk_put_repository hwalk htable']
      rfl

/-- **Extending a grammar by compiled rules.** It succeeds for an extensible grammar only. The list
at the scope is followed by a reference to each rule, the name and the scope are those of the
scheme, the definitions are followed by those of the rules, and all else is as it was. A scope that
cannot be followed is told by the first segment that is not there. -/
theorem extendGrammar_effect (grammar : Json) (scheme scope : String) (keywords : Keywords)
    (lists : KeywordLists) (n : Nat) (e : Entropy) (rules : List Rule)
    (hrules : rules = (Rule.batch keywords lists n e).rules) (hscope : ApartFromName scope)
    (hnew : ∀ rule ∈ rules, definition? grammar rule.identifier = none) :
    ((∃ extended, extendGrammar grammar scheme scope rules = .ok extended) ↔
      Extensible grammar scope) ∧
    (∀ extended, extendGrammar grammar scheme scope rules = .ok extended →
      IsExtension scheme scope rules grammar extended) ∧
    ∀ members missing, grammar = .object members → grammar.follow scope = .error missing →
      extendGrammar grammar scheme scope rules = .error missing ∧ missing.path = scope ∧
      ∃ before after node, Json.route scope = before ++ missing.segment :: after ∧
        grammar.walk before = .ok node ∧ node.child? missing.segment = none := by
  refine ⟨⟨?_, ?_⟩, ?_, ?_⟩
  · rintro ⟨extended, h⟩
    obtain ⟨members, _, rfl, _, _⟩ := extendGrammar_ok h
    rw [extensible_iff_obstacle?, ← obstacle?_rename hscope members scheme]
    -- whether the grammar can be extended does not depend on what it is called
    rcases extendGrammar_cases members scheme scope rules with ⟨_, _, herror⟩ | ⟨hnone, _⟩
    · rw [herror] at h
      cases h
    · exact hnone
  · intro hext
    obtain ⟨members, rfl⟩ := hext.root
    rw [extensible_iff_obstacle?, ← obstacle?_rename hscope members scheme] at hext
    rcases extendGrammar_cases members scheme scope rules with
      ⟨_, hsome, _⟩ | ⟨_, _, _, _, _, _, hok⟩
    · rw [hext] at hsome
      cases hsome
    · exact ⟨_, hok⟩
  · intro extended h
    subst hrules
    exact isExtension_of_extendGrammar hscope (Rule.nodup_identifiers_makeAll n _ _) hnew h
  · rintro members missing rfl hfollow
    have hobstacle : obstacle? (.object members) scope = some missing := by
      rw [obstacle?, hfollow]
    refine ⟨extendGrammar_error_iff.mpr ((obstacle?_rename hscope members scheme).trans hobstacle),
      ?_⟩
    rw [Json.follow] at hfollow
    -- the message names the first segment that cannot be followed
    cases hwalk : (Json.object members).walk (Json.route scope) with
    | ok node =>
      rw [hwalk] at hfollow
      cases hfollow
    | error segment =>
      rw [hwalk] at hfollow
      obtain rfl := Except.error.inj hfollow
      exact ⟨rfl, Json.walk_error_iff.mp hwalk⟩

/-- The list at the scope stands among the definitions. -/
theorem extendGrammar_effect_in_repository :
    let rules := (Rule.batch [("foo", .colour (.literal "#102030"))] {} 0 ⟨fun _ => 0, 0⟩).rules
    let grammar : Json := .object [("scopeName", .string "text.plain"),
      ("repository", .object [("main", .object [("patterns", .array [.null])])])]
    ApartFromName "repository.main" ∧
      (∀ rule ∈ rules, definition? grammar rule.identifier = none) ∧
      (∃ extended, extendGrammar grammar "mine" "repository.main" rules = .ok extended ∧
        extended.follow "repository.main.patterns"
          = .ok (.array [.null, .object [("include", .string "#foo0")]]) ∧
        (definitions? extended).map Table.names = some ["main", "foo0"] ∧
        definition? extended "foo0" = some (.object [("match", .string "\\bfoo\\b"),
          ("name", .string "foo0.mine")])) ∧
      extendGrammar grammar "mine" "repository.nope.patterns" rules
        = .error ⟨"nope", "repository.nope.patterns"⟩ := by
  intro rules grammar
  have hscope : ApartFromName "repository.main" := by
    rintro segment ⟨⟩
    decide
  have hscope' : ApartFromName "repository.nope.patterns" := by
    rintro segment ⟨⟩
    decide
  have hnew : ∀ rule ∈ rules, definition? grammar rule.identifier = none := by
    have hidentifiers : rules.map (·.identifier) = ["foo0"] := by rfl
    intro rule hrule
    have hmem : rule.identifier ∈ ["foo0"] := hidentifiers ▸ List.mem_map_of_mem hrule
    rw [List.mem_singleton.mp hmem]
    rfl
  refine ⟨hscope, hnew, ?_, ?_⟩
  · -- `repository.main` has a list, and the definitions can be added
    obtain ⟨hiff, heffect, _⟩ :=
      extendGrammar_effect grammar "mine" "repository.main" _ _ _ _ rules rfl hscope hnew
    have hrepository : ∀ d, grammar.member? "repository" = some d → ∃ table, d = .object table := by
      rintro d ⟨⟩
      exact ⟨_, rfl⟩
    obtain ⟨extended, hok⟩ := hiff.mpr ⟨⟨_, rfl⟩, ⟨_, _, rfl, rfl⟩, hrepository⟩
    obtain ⟨patterns, grown, table, hgrown, htable, rfl, hlist⟩ := heffect extended hok
    obtain rfl : [.null] = patterns := Json.array.inj (Except.ok.inj hgrown.walk_old)
    have hnames : some table.names = some ["main"] :=
      (congrArg _ htable).symm.trans (names_definitions?_grown hgrown)
    have hmain : table.names = ["main"] := Option.some.inj hnames
    refine ⟨_, hok, hlist, ?_, ?_⟩
    · rw [definitions?_put_repository, Option.map_some, Table.names_append, hmain]
      rfl
    · have hnone : table.get? "foo0" = none := by
        rw [Table.get?_eq_none_iff, hmain]
        decide
      rw [definition?_eq_bind, definitions?_put_repository, Option.bind_some, Table.get?_append,
        hnone]
      rfl
  · exact ((extendGrammar_effect grammar "mine" "repository.nope.patterns" _ _ _ _ rules rfl hscope'
      hnew).2.2 _ _ rfl rfl).1

end Highlight.SyntaxFiles
