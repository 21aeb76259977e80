import Highlight.Proofs.Rule.Batch
import Highlight.Proofs.SyntaxFiles.Grammar

/-!
# Grammars extended again and again

A grammar that was extended may be extended by another scheme, and so on: each scheme adds a layer.
All layers share one `repository`, while the numbers of identifiers start anew in each, so that a
later layer may come with an identifier that is there already, and then takes its place. That apart
nothing is lost. A definition under another name changes only if the rule list that a scope leads
to is within it, and then it is this list that grows. The rules of a layer have no lists that could
grow, and so each stays what it was until its identifier is taken.
-/

namespace Highlight.SyntaxFiles

open Json (Missing)

/-- A scheme that extends a grammar, with what its rules are made of. -/
structure Layer where
  scheme : String
  /-- The path to the part of the grammar that gets the rules. -/
  scope : String
  keywords : Keywords
  lists : KeywordLists
  entropy : Entropy

namespace Layer

/-- The rules of a layer, numbered from zero on. -/
def rules (layer : Layer) : List Rule :=
  (Rule.batch layer.keywords layer.lists 0 layer.entropy).rules

/-- A grammar with the layer added. -/
def extend (layer : Layer) (grammar : Json) : Except Missing Json :=
  extendGrammar grammar layer.scheme layer.scope layer.rules

/-- Whether the rule list that the scope leads to is within the definition called `name`. -/
def Within (layer : Layer) (name : String) : Prop :=
  ["repository", name] <+: rulesRoute layer.scope

instance (layer : Layer) (name : String) : Decidable (layer.Within name) :=
  inferInstanceAs (Decidable (_ <+: _))

/-- The definition called `name` with what the layer appends to a rule list within it. -/
def grow (layer : Layer) (name : String) (d : Json) : Except String Json :=
  if layer.Within name then
    Json.walkModify (appendItems (layer.rules.map reference)) d
      ((rulesRoute layer.scope).drop 2)
  else .ok d

end Layer

/-- A grammar with layers added one after another. -/
def extendAll (grammar : Json) (layers : List Layer) : Except Missing Json :=
  layers.foldlM (fun grammar layer => layer.extend grammar) grammar

theorem extendAll_cons_ok {base final : Json} {layer : Layer} {layers : List Layer}
    (h : extendAll base (layer :: layers) = .ok final) :
    ∃ grammar, layer.extend base = .ok grammar ∧ extendAll grammar layers = .ok final := by
  unfold extendAll at h
  rw [List.foldlM_cons] at h
  exact exists_of_bind_ok h

theorem extendAll_append_ok {base final : Json} {earlier later : List Layer}
    (h : extendAll base (earlier ++ later) = .ok final) :
    ∃ grammar, extendAll base earlier = .ok grammar ∧ extendAll grammar later = .ok final := by
  unfold extendAll at h
  rw [List.foldlM_append] at h
  exact exists_of_bind_ok h

/-! ## One layer -/

theorem Layer.grow_of_not_within {layer : Layer} {name : String} (h : ¬layer.Within name)
    (d : Json) : layer.grow name d = .ok d := by
  rw [grow, if_neg h]

theorem Layer.grow_of_route {layer : Layer} {name : String} {rest : List String}
    (h : rulesRoute layer.scope = "repository" :: name :: rest) (d : Json) :
    layer.grow name d = Json.walkModify (appendItems (layer.rules.map reference)) d rest := by
  have hwithin : layer.Within name := ⟨rest, h.symm⟩
  rw [grow, if_pos hwithin, h]
  rfl

/-- A rule list that grows changes no definition but the one it is within. -/
theorem definition?_walkModify {grammar grammar' d : Json} {layer : Layer} {name : String}
    (h : Json.walkModify (appendItems (layer.rules.map reference)) grammar
      (rulesRoute layer.scope) = .ok grammar')
    (hd : definition? grammar name = some d) :
    ∃ d', layer.grow name d = .ok d' ∧ definition? grammar' name = some d' := by
  obtain ⟨repository, hrepository, hname⟩ := Option.bind_eq_some_iff.mp hd
  -- unless the route starts with `repository` and the name, it leads past the definition
  have hpast : (∀ rest, rulesRoute layer.scope ≠ "repository" :: name :: rest) →
      definition? grammar' name = some d →
      ∃ d', layer.grow name d = .ok d' ∧ definition? grammar' name = some d' := by
    intro hroute hsame
    refine ⟨d, layer.grow_of_not_within ?_ d, hsame⟩
    rintro ⟨rest, hrest⟩
    exact hroute rest hrest.symm
  cases hroute : rulesRoute layer.scope with
  | nil => exact absurd hroute (List.append_ne_nil_of_right_ne_nil _ (by decide))
  | cons segment rest =>
    rw [hroute] at h hpast
    by_cases hsegment : segment = "repository"
    · subst hsegment
      obtain ⟨repository', hmodify, hrepository'⟩ := Json.member?_walkModify_self h hrepository
      have hdefinition : definition? grammar' name = repository'.member? name := by
        rw [definition?, hrepository']
        rfl
      cases rest with
      | nil =>
        -- `repository` itself is no list, so nothing can be appended to it
        obtain ⟨members, rfl, _⟩ := Json.exists_object_of_member? hname
        obtain rfl := Except.ok.inj hmodify
        exact hpast (by simp) (hdefinition.trans hname)
      | cons name' rest =>
        by_cases hn : name' = name
        · subst hn
          obtain ⟨d', hd', hmember⟩ := Json.member?_walkModify_self hmodify hname
          exact ⟨d', (Layer.grow_of_route hroute d).trans hd', hdefinition.trans hmember⟩
        · refine hpast ?_ ?_
          · intro rest' heq
            exact hn (List.cons.inj (List.cons.inj heq).2).1
          · rw [hdefinition, Json.member?_walkModify_ne hmodify hn, hname]
    · refine hpast ?_ ?_
      · intro rest' heq
        exact hsegment (List.cons.inj heq).1
      · rw [definition?, Json.member?_walkModify_ne h hsegment]
        exact hd

/-- A layer with no rule of that identifier lets a definition grow at most. -/
theorem definition?_extend {grammar grammar' d : Json} {layer : Layer} {name : String}
    (h : layer.extend grammar = .ok grammar')
    (hfree : ∀ rule ∈ layer.rules, rule.identifier ≠ name)
    (hd : definition? grammar name = some d) :
    ∃ d', layer.grow name d = .ok d' ∧ definition? grammar' name = some d' := by
  obtain ⟨members, grammar₁, rfl, hreferences, hdefinitions⟩ := extendGrammar_ok h
  rw [← definition?_rename members layer.scheme] at hd
  obtain ⟨d', hgrow, hd'⟩ := definition?_walkModify hreferences hd
  refine ⟨d', hgrow, ?_⟩
  have hnone : Table.get? (layer.rules.map (definition layer.scheme)).reverse name = none := by
    rw [Table.get?_eq_none_iff, Table.names_reverse, names_definitions, List.mem_reverse]
    intro hmem
    obtain ⟨rule, hrule, hid⟩ := List.mem_map.mp hmem
    exact hfree rule hrule hid
  rw [addDefinitions_ok hdefinitions, hnone, hd']
  rfl

/-- A layer brings the definitions of all its rules. -/
theorem definition?_extend_rule {grammar grammar' : Json} {layer : Layer} {rule : Rule}
    (h : layer.extend grammar = .ok grammar') (hrule : rule ∈ layer.rules) :
    definition? grammar' rule.identifier = some (definition layer.scheme rule).2 :=
  -- the identifiers of one layer are distinct
  definition?_extendGrammar_rule (Rule.nodup_identifiers_makeAll 0 _ _) h hrule

/-! ## Rules have no lists within -/

theorem not_walkModify_definition {scheme : String} {rule : Rule} {f : Json → Json} {d' : Json}
    (segments : List String) :
    Json.walkModify f (definition scheme rule).2 (segments ++ ["patterns"]) ≠ .ok d' := by
  intro h
  cases segments with
  | nil =>
    -- the list would have to be a member of the rule
    obtain ⟨child, child', hc, _⟩ := Json.walkModify_cons_ok h
    cases hc
  | cons segment rest =>
    obtain ⟨child, child', hc, hmodify, _⟩ := Json.walkModify_cons_ok h
    -- both members of a rule are texts
    have hstring : ∃ s, child = .string s := by
      have hget : (if "match" = segment then some (.string rule.pattern)
          else if "name" = segment then some (.string (publishedScope rule scheme))
          else none) = some child := hc
      split at hget
      · exact ⟨_, (Option.some.inj hget).symm⟩
      · split at hget
        · exact ⟨_, (Option.some.inj hget).symm⟩
        · cases hget
    obtain ⟨s, rfl⟩ := hstring
    cases rest <;> cases hmodify

/-- A rule does not grow. -/
theorem grow_definition {layer : Layer} {scheme : String} {rule : Rule} {d' : Json}
    (hid : rule.identifier ≠ "patterns")
    (h : layer.grow rule.identifier (definition scheme rule).2 = .ok d') :
    d' = (definition scheme rule).2 := by
  by_cases hwithin : layer.Within rule.identifier
  · exfalso
    obtain ⟨rest, hrest⟩ := hwithin
    rw [Layer.grow_of_route hrest.symm] at h
    rw [rulesRoute] at hrest
    -- the route ends in `patterns`, so there is a list to be found behind the identifier
    cases hroute : Json.route layer.scope with
    | nil =>
      rw [hroute] at hrest
      exact absurd (List.cons.inj hrest).1 (by decide)
    | cons first others =>
      rw [hroute] at hrest
      cases others with
      | nil => exact hid (List.cons.inj (List.cons.inj hrest).2).1
      | cons second others =>
        obtain rfl : rest = others ++ ["patterns"] :=
          (List.cons.inj (List.cons.inj hrest).2).2
        exact not_walkModify_definition others h
  · -- a route that leads past the rule leaves it as it is
    rw [Layer.grow_of_not_within hwithin] at h
    exact (Except.ok.inj h).symm

/-! ## All layers -/

/-- Layers with no rule of that identifier let a definition grow at most. -/
theorem definition?_extendAll {base final d : Json} {layers : List Layer} {name : String}
    (h : extendAll base layers = .ok final)
    (hfree : ∀ layer ∈ layers, ∀ rule ∈ layer.rules, rule.identifier ≠ name)
    (hd : definition? base name = some d) :
    ∃ d', layers.foldlM (fun d layer => layer.grow name d) d = .ok d' ∧
      definition? final name = some d' := by
  induction layers generalizing base d with
  | nil =>
    obtain rfl := Except.ok.inj h
    exact ⟨d, rfl, hd⟩
  | cons layer layers ih =>
    obtain ⟨grammar, hextend, hrest⟩ := extendAll_cons_ok h
    rw [List.forall_mem_cons] at hfree
    obtain ⟨d₁, hgrow, hd₁⟩ := definition?_extend hextend hfree.1 hd
    obtain ⟨d', hfold, hd'⟩ := ih hrest hfree.2 hd₁
    refine ⟨d', ?_, hd'⟩
    rw [List.foldlM_cons, hgrow]
    exact hfold

/-- Layers with no rule of the same identifier leave a rule as it is. -/
theorem definition?_extendAll_rule {grammar final : Json} {layers : List Layer} {scheme : String}
    {rule : Rule} (h : extendAll grammar layers = .ok final)
    (hfree : ∀ layer ∈ layers, ∀ rule' ∈ layer.rules, rule'.identifier ≠ rule.identifier)
    (hid : rule.identifier ≠ "patterns")
    (hd : definition? grammar rule.identifier = some (definition scheme rule).2) :
    definition? final rule.identifier = some (definition scheme rule).2 := by
  induction layers generalizing grammar with
  | nil =>
    obtain rfl := Except.ok.inj h
    exact hd
  | cons layer layers ih =>
    obtain ⟨grammar', hextend, hrest⟩ := extendAll_cons_ok h
    rw [List.forall_mem_cons] at hfree
    obtain ⟨d', hgrow, hd'⟩ := definition?_extend hextend hfree.1 hd
    rw [grow_definition hid hgrow] at hd'
    exact ih hrest hfree.2 hd'

theorem Layer.identifier_ne_patterns {layer : Layer} {rule : Rule} (h : rule ∈ layer.rules) :
    rule.identifier ≠ "patterns" := by
  obtain ⟨m, _, hid⟩ := Rule.exists_number_of_mem_makeAll h
  rw [hid]
  exact Rule.identifierOf_ne_letters (by decide)

theorem foldlM_grow_of_not_within {layers : List Layer} {name : String}
    (h : ∀ layer ∈ layers, ¬layer.Within name) (d : Json) :
    layers.foldlM (fun d layer => layer.grow name d) d = .ok d := by
  induction layers with
  | nil => rfl
  | cons layer layers ih =>
    rw [List.forall_mem_cons] at h
    rw [List.foldlM_cons, Layer.grow_of_not_within h.1]
    exact ih h.2

/--
**Extending a grammar keeps its definitions.** Whatever the scopes of the layers are, a definition
that no rule of theirs is called like is still there in the end. It is what it was, unless scopes
led to rule lists within it, which then got the references of these layers. A rule that no later
layer has the identifier of is still defined as its own layer defined it, and the reference that
was put into the rule list leads to it.
-/
theorem layers_keep_definitions {base final : Json} {layers : List Layer}
    (h : extendAll base layers = .ok final) :
    (∀ name d, definition? base name = some d →
      (∀ layer ∈ layers, ∀ rule ∈ layer.rules, rule.identifier ≠ name) →
      (∃ d', layers.foldlM (fun d layer => layer.grow name d) d = .ok d' ∧
        definition? final name = some d') ∧
      ((∀ layer ∈ layers, ¬layer.Within name) → definition? final name = some d)) ∧
    (∀ earlier layer later, layers = earlier ++ layer :: later → ∀ rule ∈ layer.rules,
      (∀ layer' ∈ later, ∀ rule' ∈ layer'.rules, rule'.identifier ≠ rule.identifier) →
      definition? final rule.identifier = some (.object [("match", .string rule.pattern),
        ("name", .string (rule.identifier ++ "." ++ layer.scheme))]) ∧
      resolve? final (reference rule) = definition? final rule.identifier) := by
  constructor
  · intro name d hd hfree
    -- what the base defines and no rule redefines
    obtain ⟨d', hgrow, hd'⟩ := definition?_extendAll h hfree hd
    refine ⟨⟨d', hgrow, hd'⟩, ?_⟩
    intro hout
    rw [foldlM_grow_of_not_within hout] at hgrow
    obtain rfl := Except.ok.inj hgrow
    exact hd'
  · intro earlier layer later hlayers rule hrule hfree
    -- what a layer defines and no later one redefines
    rw [hlayers] at h
    obtain ⟨grammar, _, hlater⟩ := extendAll_append_ok h
    obtain ⟨grammar', hextend, hrest⟩ := extendAll_cons_ok hlater
    have hdefinition : definition? grammar' rule.identifier
        = some (definition layer.scheme rule).2 := definition?_extend_rule hextend hrule
    refine ⟨?_, resolve?_reference final rule⟩
    exact definition?_extendAll_rule hrest hfree (Layer.identifier_ne_patterns hrule) hdefinition

/-- Two layers in the rule list of `main`, with a definition beside it that neither touches. -/
theorem layers_keep_definitions_of_two_layers :
    let base : Json := .object [("scopeName", .string "source.base"),
      ("repository", .object [("main", .object [("patterns", .array [])]),
        ("text", .object [("match", .string "x")])])]
    let one : Layer := ⟨"one", "repository.main", [("foo", .full {})], {}, ⟨fun _ => 0, 0⟩⟩
    let two : Layer := ⟨"two", "repository.main", [("bar", .full {})], {}, ⟨fun _ => 0, 0⟩⟩
    ∃ final, extendAll base [one, two] = .ok final ∧
      definition? final "text" = some (.object [("match", .string "x")]) ∧
      definition? final "main" = some (.object [("patterns", .array
        [.object [("include", .string "#foo0")], .object [("include", .string "#bar0")]])]) ∧
      resolve? final (.object [("include", .string "#foo0")])
        = some (.object [("match", .string "\\bfoo\\b"), ("name", .string "foo0.one")]) := by
  intro base one two
  let final : Json := .object [("scopeName", .string "source.base.one.two"),
    ("repository", .object [
      ("main", .object [("patterns", .array
        [.object [("include", .string "#foo0")], .object [("include", .string "#bar0")]])]),
      ("text", .object [("match", .string "x")]),
      ("foo0", .object [("match", .string "\\bfoo\\b"), ("name", .string "foo0.one")]),
      ("bar0", .object [("match", .string "\\bbar\\b"), ("name", .string "bar0.two")])]),
    ("name", .string "two")]
  have hfinal : extendAll base [one, two] = .ok final := by cbv
  have hone : one.rules = [⟨"foo", "\\bfoo\\b", "foo0", none, none, {}⟩] := by rfl
  have htwo : two.rules = [⟨"bar", "\\bbar\\b", "bar0", none, none, {}⟩] := by rfl
  obtain ⟨hold, hnew⟩ := layers_keep_definitions hfinal
  refine ⟨final, hfinal, ?_, ?_, ?_⟩
  · apply (hold "text" _ (by rfl) _).2
    · decide
    · simp [hone, htwo]
  · obtain ⟨d', hgrow, hd'⟩ := (hold "main" _ (by rfl) (by simp [hone, htwo])).1
    have hgrown : [one, two].foldlM (fun d layer => layer.grow "main" d)
        (.object [("patterns", .array [])]) = .ok (.object [("patterns", .array
          [.object [("include", .string "#foo0")], .object [("include", .string "#bar0")]])]) := by
      cbv
    rw [hd', Except.ok.inj (hgrow.symm.trans hgrown)]
  · obtain ⟨hdefinition, hresolve⟩ := hnew [] one [two] rfl _ (by rw [hone]; exact .head _)
      (by simp [htwo])
    exact hresolve.trans hdefinition

/--
A layer whose scope leads into `repository` changes the definition there, and identifiers that are
there already are taken over, be they those of the grammar or those of an earlier layer.
-/
theorem layers_change_definitions :
    let base : Json := .object [("patterns", .array []),
      ("repository", .object [("main", .object [("patterns", .array [])]),
        ("foo0", .object [("match", .string "x")])])]
    let one : Layer := ⟨"one", "repository.main", [("foo", .full {})], {}, ⟨fun _ => 0, 0⟩⟩
    let two : Layer := ⟨"two", "repository.main", [("foo", .full {})], {}, ⟨fun _ => 0, 0⟩⟩
    ∃ final, extendAll base [one, two] = .ok final ∧
      (∀ name ∈ ["main", "foo0"], definition? final name ≠ definition? base name) ∧
      ¬∀ rule ∈ one.rules, definition? final rule.identifier
        = some (.object [("match", .string rule.pattern),
          ("name", .string (rule.identifier ++ "." ++ one.scheme))]) := by
  intro base one two
  let final : Json := .object [("patterns", .array []),
    ("repository", .object [
      ("main", .object [("patterns", .array
        [.object [("include", .string "#foo0")], .object [("include", .string "#foo0")]])]),
      ("foo0", .object [("match", .string "\\bfoo\\b"), ("name", .string "foo0.two")])]),
    ("name", .string "two"), ("scopeName", .string "source.one.two")]
  have hfinal : extendAll base [one, two] = .ok final := by cbv
  have hone : one.rules = [⟨"foo", "\\bfoo\\b", "foo0", none, none, {}⟩] := by rfl
  have hfoo : definition? final "foo0"
      = some (.object [("match", .string "\\bfoo\\b"), ("name", .string "foo0.two")]) := by rfl
  refine ⟨final, hfinal, ?_, ?_⟩
  · have hmain : definition? final "main" = some (.object [("patterns", .array
        [.object [("include", .string "#foo0")], .object [("include", .string "#foo0")]])]) := by
      rfl
    have hbaseMain : definition? base "main" = some (.object [("patterns", .array [])]) := by rfl
    have hbaseFoo : definition? base "foo0" = some (.object [("match", .string "x")]) := by rfl
    simp [hmain, hfoo, hbaseMain, hbaseFoo]
  · intro h
    have hkept := h _ (by rw [hone]; exact .head _)
    rw [hfoo] at hkept
    simp [one] at hkept

end Highlight.SyntaxFiles
