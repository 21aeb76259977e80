import Highlight.Proofs.Json.Route
import Highlight.SyntaxFiles.Extended

/-!
# What extending a grammar does

A grammar that is extended goes through three steps, each of which is told by what it leaves: it
gets a name and a scope, the references to the rules are appended to the list that the scope path
leads to, and the rules are put into `repository`. `definitions?` are what it keeps there,
`definition?` looks one up, and `resolve?` follows a reference to it.
-/

namespace Highlight.SyntaxFiles

open Json (Missing)

/-- The definition that a grammar keeps under a name in its `repository`. -/
def definition? (grammar : Json) (name : String) : Option Json :=
  (grammar.member? "repository").bind (·.member? name)

/-- The definitions of a grammar: none if there is no `repository`. -/
def definitions? (grammar : Json) : Option (Table Json) :=
  match grammar.member? "repository" with
  | none => some []
  | some d => d.object?

theorem definition?_eq_bind (grammar : Json) (name : String) :
    definition? grammar name = (definitions? grammar).bind (·.get? name) := by
  unfold definition? definitions?
  cases grammar.member? "repository" <;> rfl

theorem definitions?_put {name : String} (h : name ≠ "repository") (members : Table Json)
    (v : Json) : definitions? (.object (members.put name v)) = definitions? (.object members) := by
  rw [definitions?, definitions?, Json.member?_object, Json.member?_object, Table.get?_put,
    if_neg h]

theorem definitions?_put_repository (members table : Table Json) :
    definitions? (.object (members.put "repository" (.object table))) = some table := by
  rw [definitions?, Json.member?_object, Table.get?_put, if_pos rfl]
  rfl

/-- The definition that a reference such as `#name` stands for. -/
def resolve? (grammar ref : Json) : Option Json :=
  match (ref.member? "include").bind Json.string? with
  | some text =>
    match text.toList with
    | '#' :: name => definition? grammar (String.ofList name)
    | _ => none
  | none => none

theorem resolve?_reference (grammar : Json) (rule : Rule) :
    resolve? grammar (reference rule) = definition? grammar rule.identifier := by
  have htext : ((reference rule).member? "include").bind Json.string?
      = some ("#" ++ rule.identifier) := rfl
  have hlist : ("#" ++ rule.identifier).toList = '#' :: rule.identifier.toList := by
    rw [String.toList_append]
    rfl
  simp only [resolve?, htext, hlist, String.ofList_toList]

/-- A list with items appended; what is no list stays as it is. -/
def appendItems (items : List Json) : Json → Json
  | .array old => .array (old ++ items)
  | doc => doc

/-- Where the rule list at a scope stands. -/
def rulesRoute (scope : String) : List String := Json.route scope ++ ["patterns"]

/-- Setting the rule list of a node is appending to it where it stands. -/
theorem walkModify_setMember {doc node : Json} {segments : List String}
    {patterns references : List Json} (hnode : doc.walk segments = .ok node)
    (hlist : node.member? "patterns" = some (.array patterns)) :
    Json.walkModify (fun node => setMember node "patterns" (.array (patterns ++ references))) doc
        segments = Json.walkModify (appendItems references) doc (segments ++ ["patterns"]) := by
  induction segments generalizing doc with
  | nil =>
    obtain rfl := Except.ok.inj hnode
    obtain ⟨members, rfl, hget⟩ := Json.exists_object_of_member? hlist
    have hchild : (Json.object members).child? "patterns" = some (.array patterns) := hget
    rw [List.nil_append, Json.walkModify_cons hchild]
    rfl
  | cons segment rest ih =>
    obtain ⟨child, hc, hwalk⟩ := Json.walk_cons_ok hnode
    rw [List.cons_append, Json.walkModify_cons hc, Json.walkModify_cons hc, ih hwalk]

/-- References that were added stand at the end of the rule list. -/
theorem addReferences_ok {grammar grammar' : Json} {scope : String} {references : List Json}
    (h : addReferences grammar scope references = .ok grammar') :
    Json.walkModify (appendItems references) grammar (rulesRoute scope) = .ok grammar' := by
  unfold addReferences at h
  obtain ⟨node, hfollow, h⟩ := exists_of_bind_ok h
  split at h
  · cases h
  · rename_i patterns hlist
    obtain ⟨list, hmember, harray⟩ := Option.bind_eq_some_iff.mp hlist
    cases list <;> cases harray
    -- the list was read where it is written, so that nothing of it is lost
    rw [rulesRoute, ← walkModify_setMember (of_mapError_ok hfollow) hmember]
    exact of_mapError_ok h

theorem addDefinitions_object (members : Table Json) (definitions : Table Json) :
    addDefinitions (.object members) definitions
      = match definitions? (.object members) with
        | some table =>
          .ok (.object (members.put "repository" (.object (table.putAll definitions))))
        | none => .error ⟨"repository", "repository"⟩ := by
  simp only [addDefinitions, definitions?, Json.member?_object]
  cases hget : Table.get? members "repository" with
  | none => rfl
  | some d => cases d <;> rfl

/-- Definitions that were added come before those that were there. -/
theorem addDefinitions_ok {grammar grammar' : Json} {definitions : Table Json}
    (h : addDefinitions grammar definitions = .ok grammar') (name : String) :
    definition? grammar' name
      = (Table.get? definitions.reverse name).or (definition? grammar name) := by
  cases grammar with
  | object members =>
    rw [addDefinitions_object] at h
    cases htable : definitions? (.object members) with
    | none =>
      -- a `repository` that is no object is an error
      rw [htable] at h
      cases h
    | some table =>
      rw [htable] at h
      obtain rfl := Except.ok.inj h
      rw [definition?_eq_bind, definition?_eq_bind, definitions?_put_repository, htable]
      exact Table.get?_putAll _ _ _
  | _ => cases h

/-- The scope and the name of a grammar have nothing to do with its definitions. -/
theorem definitions?_rename (members : Table Json) (scheme : String) :
    definitions? (.object (rename members scheme)) = definitions? (.object members) := by
  rw [rename, definitions?_put (by decide), definitions?_put (by decide)]

theorem definition?_rename (members : Table Json) (scheme name : String) :
    definition? (.object (rename members scheme)) name = definition? (.object members) name := by
  rw [definition?_eq_bind, definition?_eq_bind, definitions?_rename]

theorem extendGrammar_ok {grammar grammar' : Json} {scheme scope : String} {rules : List Rule}
    (h : extendGrammar grammar scheme scope rules = .ok grammar') :
    ∃ members grammar₁, grammar = .object members ∧
      Json.walkModify (appendItems (rules.map reference)) (.object (rename members scheme))
        (rulesRoute scope) = .ok grammar₁ ∧
      addDefinitions grammar₁ (rules.map (definition scheme)) = .ok grammar' := by
  unfold extendGrammar at h
  split at h
  · rename_i members
    obtain ⟨grammar₁, hreferences, hdefinitions⟩ := exists_of_bind_ok h
    exact ⟨members, grammar₁, rfl, addReferences_ok hreferences, hdefinitions⟩
  · cases h

theorem names_definitions (scheme : String) (rules : List Rule) :
    Table.names (rules.map (definition scheme)) = rules.map (·.identifier) := by
  rw [Table.names, List.map_map]
  rfl

/-- A rule is defined in the grammar that it was added to, whatever was under its identifier. -/
theorem definition?_extendGrammar_rule {grammar grammar' : Json} {scheme scope : String}
    {rules : List Rule} {rule : Rule} (hnodup : (rules.map (·.identifier)).Nodup)
    (h : extendGrammar grammar scheme scope rules = .ok grammar') (hrule : rule ∈ rules) :
    definition? grammar' rule.identifier = some (definition scheme rule).2 := by
  obtain ⟨members, grammar₁, _, _, hdefinitions⟩ := extendGrammar_ok h
  have hget : Table.get? (rules.map (definition scheme)).reverse rule.identifier
      = some (definition scheme rule).2 := by
    apply Table.get?_of_mem
    · -- no identifier comes up twice, so the order does not matter
      rw [Table.names_reverse, names_definitions]
      exact List.nodup_reverse.mpr hnodup
    · exact List.mem_reverse.mpr (List.mem_map_of_mem hrule)
  rw [addDefinitions_ok hdefinitions, hget]
  rfl

end Highlight.SyntaxFiles
