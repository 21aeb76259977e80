import Highlight.Proofs.SyntaxFiles.Extending
import Highlight.Proofs.SyntaxFiles.Grammar
import Highlight.Proofs.Json.Nesting

/-!
# How deep syntax files nest

Syntax files are put together from documents that were read, each within the depth of the reader,
and from rules, which nest a few containers deep. Whatever is taken over from a document is put as
deep as it was, so that nothing gets deeper. The exception is a rule list that stands so deep that
no container may stand in it: the references that are appended to it are containers
(`within_extendGrammar`).
-/

namespace Highlight.SyntaxFiles

open Json (Within maxDepth)

variable {depth : Nat} {fs : FileSystem} {doc : Json} {rules : List Rule} {scheme : Scheme}
  {directory : Path}

/-! ## Parts of documents -/

theorem within_documentAt {p : Path} (h : documentAt fs p = .ok doc) : Within maxDepth doc := by
  rw [documentAt] at h
  split at h
  · cases h
  · split at h
    · cases h
    · next hread =>
      obtain rfl := Except.ok.inj h
      exact Json.within_of_read hread

/-- The members of what is no object are none. -/
theorem each_object? (h : Within (depth + 1) doc) : (doc.object?.getD []).Each (Within depth) := by
  cases doc with
  | object members => exact Json.within_object_iff.mp h
  | _ => exact .nil

theorem within_array? {items : List Json} (h : Within (depth + 1) doc)
    (hitems : doc.array? = some items) : ∀ item ∈ items, Within depth item := by
  cases doc with
  | array items' =>
    obtain rfl := Option.some.inj hitems
    exact Json.within_array_iff.mp h
  | _ => cases hitems

theorem within_member? {name : String} {part : Json} (h : Within (depth + 1) doc)
    (hpart : doc.member? name = some part) : Within depth part := by
  obtain ⟨members, rfl, hget⟩ := Json.exists_object_of_member? hpart
  exact (Json.within_object_iff.mp h).get? hget

/-- The base colours of a theme stand four containers deep in it. -/
theorem each_ofTheme? {base : BaseColours} (h : Within (depth + 4) doc)
    (hbase : BaseColours.ofTheme? doc = some base) : base.Each (Within depth) := by
  obtain ⟨settings, hsettings, hbase⟩ := Option.bind_eq_some_iff.mp hbase
  obtain ⟨entries, hentries, hbase⟩ := Option.bind_eq_some_iff.mp hbase
  obtain ⟨entry, hentry, hbase⟩ := Option.bind_eq_some_iff.mp hbase
  obtain ⟨look, hlook, hbase⟩ := Option.bind_eq_some_iff.mp hbase
  have hwithin : Within (depth + 2) entry :=
    within_array? (within_member? h hsettings) hentries _ (List.mem_of_find?_eq_some hentry)
  have hmembers := each_object? (within_member? hwithin hlook)
  rwa [hbase] at hmembers

/-! ## What is made of rules -/

theorem within_textArray (texts : List String) : Within 1 (textArray texts) := by
  refine .array fun item hitem => ?_
  obtain ⟨s, _, rfl⟩ := List.mem_map.mp hitem
  exact .string

theorem within_ruleLook (rule : Rule) : Within 1 (ruleLook rule) := by
  rw [ruleLook]
  cases rule.foreground <;> cases rule.background <;> cases rule.font.word? <;>
    exact .object (by simp [Table.names]) (by simp [Within.string])

theorem within_themeEntry (rule : Rule) (scope : String) : Within 2 (themeEntry rule scope) := by
  refine .object (by simp [Table.names]) ?_
  simp only [List.forall_mem_cons]
  exact ⟨.string, .string, within_ruleLook rule, List.forall_mem_nil _⟩

theorem within_rulePattern (rule : Rule) : Within 1 (rulePattern rule) :=
  .object (by simp [Table.names]) (by simp [Within.string])

theorem within_reference (rule : Rule) : Within 1 (reference rule) :=
  .object (by simp [Table.names]) (by simp [Within.string])

theorem within_definition (name : String) (rule : Rule) : Within 1 (definition name rule).2 :=
  .object (by simp [Table.names]) (by simp [Within.string])

/-! ## New syntax files -/

theorem within_newGrammar (id : String) : Within 3 (newGrammar scheme rules id) := by
  have hpatterns : Within 2 (.array (rules.map rulePattern)) := by
    refine .array fun item hitem => ?_
    obtain ⟨rule, _, rfl⟩ := List.mem_map.mp hitem
    exact within_rulePattern rule
  refine .object (by simp [Table.names]) ?_
  simp only [List.forall_mem_cons]
  exact ⟨.string, .string, (within_textArray _).mono (by decide), hpatterns, .string,
    List.forall_mem_nil _⟩

theorem within_newTheme {base : BaseColours} (hbase : base.Each (Within depth)) (id : String) :
    Within (depth + 4) (newTheme scheme rules base id) := by
  have hfirst : Within (depth + 2) (.object [("settings", .object base)]) :=
    .object (by simp [Table.names]) (by simp [Json.within_object_iff, hbase])
  have hentries : Within (depth + 3) (.array (.object [("settings", .object base)]
      :: rules.map fun rule => themeEntry rule rule.identifier)) := by
    refine .array (List.forall_mem_cons.mpr ⟨hfirst, fun item hitem => ?_⟩)
    obtain ⟨rule, _, rfl⟩ := List.mem_map.mp hitem
    exact (within_themeEntry rule _).mono (Nat.le_add_left _ _)
  refine .object (by simp [Table.names]) ?_
  simp only [List.forall_mem_cons]
  exact ⟨.string, hentries, .string, List.forall_mem_nil _⟩

theorem each_default : BaseColours.default.Each (Within depth) :=
  ⟨by decide, by simp [BaseColours.default, Within.string]⟩

theorem within_newSettings (h : scheme.settings.Each (Within (depth + 1))) :
    Within (depth + 2) (newSettings scheme directory) := by
  refine Json.within_object_iff.mpr (Table.Each.putAll ⟨by simp [Table.names], ?_⟩ h.value)
  simp only [List.forall_mem_cons]
  exact ⟨(within_textArray _).mono (Nat.le_add_left _ _), .string, List.forall_mem_nil _⟩

/-! ## Extended syntax files -/

theorem within_extendTheme (h : Within (depth + 4) doc) (name : String) :
    Within (depth + 4) (extendTheme doc name rules) := by
  have hmembers := (each_object? h).put "name" (v := .string name) .string
  refine Json.within_object_iff.mpr (hmembers.put _ (.array fun item hitem => ?_))
  rcases List.mem_append.mp hitem with hold | hadded
  · cases hentries : ((Table.put (doc.object?.getD []) "name" (.string name)).get? "settings").bind
        Json.array? with
    | none => simp [hentries] at hold
    | some entries =>
      obtain ⟨settings, hget, harray⟩ := Option.bind_eq_some_iff.mp hentries
      rw [hentries] at hold
      exact within_array? (hmembers.get? hget) harray item hold
  · obtain ⟨rule, _, rfl⟩ := List.mem_map.mp hadded
    exact (within_themeEntry rule _).mono (Nat.le_add_left _ _)

theorem within_extendSettings {overlay : Table Json} (h : Within (depth + 1) doc)
    (hoverlay : overlay.Each (Within depth)) (theme : String) :
    Within (depth + 1) (extendSettings doc overlay theme) :=
  Json.within_object_iff.mpr (((each_object? h).putAll hoverlay.value).put _ .string)

/-- Containers that are appended to a list get in its way only if it may hold none. -/
theorem within_appendItems {items : List Json} (h : Within depth doc)
    (hitems : ∀ item ∈ items, Within 1 item) :
    Within (depth + 1) (appendItems items doc) ∧
      (Within depth (appendItems items doc) ∨ items ≠ [] ∧ depth = 1) := by
  cases h with
  | @array depth old hold =>
    -- only items that come into a list of plain values bring it one level deeper
    have happend : ∀ d, depth ≤ d → 1 ≤ d → Within (d + 1) (.array (old ++ items)) := by
      intro d hdepth hd
      refine .array fun item hmem => ?_
      rcases List.mem_append.mp hmem with h | h
      · exact (hold item h).mono hdepth
      · exact (hitems item h).mono hd
    refine ⟨happend _ (Nat.le_succ _) (Nat.succ_pos _), ?_⟩
    cases items with
    | nil =>
      rw [appendItems, List.append_nil]
      exact Or.inl (.array hold)
    | cons item items =>
      cases depth with
      | zero => exact Or.inr ⟨by simp, rfl⟩
      | succ depth => exact Or.inl (happend _ (Nat.le_refl _) (Nat.succ_pos _))
  | null => exact ⟨.null, Or.inl .null⟩
  | bool => exact ⟨.bool, Or.inl .bool⟩
  | number hn => exact ⟨.number hn, Or.inl (.number hn)⟩
  | string => exact ⟨.string, Or.inl .string⟩
  | object hnodup hvalue =>
    have hobject := Within.object hnodup hvalue
    exact ⟨hobject.mono (Nat.le_succ _), Or.inl hobject⟩

theorem within_addDefinitions {grammar' : Json} {definitions : Table Json}
    (h : addDefinitions doc definitions = .ok grammar') (hdoc : Within (depth + 3) doc)
    (hdefinitions : ∀ e ∈ definitions, Within 1 e.2) : Within (depth + 3) grammar' := by
  unfold addDefinitions at h
  split at h
  · next members =>
    have hmembers := Json.within_object_iff.mp hdoc
    split at h
    · next repository hrepository =>
      obtain rfl := Except.ok.inj h
      have hold : Within (depth + 2) ((Table.get? members "repository").getD (.object [])) := by
        cases hget : Table.get? members "repository" with
        | none => exact Json.within_object_iff.mpr .nil
        | some d => exact hmembers.get? hget
      rw [hrepository] at hold
      -- a definition is one level deep, and stands two levels below the root
      refine Json.within_object_iff.mpr (hmembers.put _ (Json.within_object_iff.mpr ?_))
      refine (Json.within_object_iff.mp hold).putAll fun e he => ?_
      exact (hdefinitions e he).mono (Nat.le_add_left _ _)
    · cases h
  · cases h

/--
**A grammar gets no deeper by rules**, unless its rule list stands as deep as a container may stand.
Then it gets deeper by one.
-/
theorem within_extendGrammar {grammar' : Json} {name scope : String}
    (h : extendGrammar doc name scope rules = .ok grammar') (hdoc : Within maxDepth doc) :
    Within (maxDepth + 1) grammar' ∧
      (Within maxDepth grammar' ∨ rules ≠ [] ∧ (Json.route scope).length = maxDepth - 2) := by
  obtain ⟨members, grammar₁, rfl, hreferences, hdefinitions⟩ := extendGrammar_ok h
  have hrenamed : Within maxDepth (.object (rename members name)) := by
    have hmembers := Json.within_object_iff.mp hdoc
    exact Json.within_object_iff.mpr ((hmembers.put _ .string).put _ .string)
  obtain ⟨inner, part, hlength, hpart, hchange⟩ := Json.within_walkModify hreferences hrenamed
  have hadded : ∀ item ∈ rules.map reference, Within 1 item := by
    intro item hitem
    obtain ⟨rule, _, rfl⟩ := List.mem_map.mp hitem
    exact within_reference rule
  have hdefined : ∀ e ∈ rules.map (definition name), Within 1 e.2 := by
    intro e he
    obtain ⟨rule, _, rfl⟩ := List.mem_map.mp he
    exact within_definition name rule
  obtain ⟨hdeeper, hsame⟩ := within_appendItems hpart hadded
  constructor
  · -- the references stand two levels below the end of the route
    have hgrammar₁ := hchange (inner + 1) (Nat.le_succ _) hdeeper
    rw [← Nat.add_assoc, ← hlength] at hgrammar₁
    exact within_addDefinitions hdefinitions hgrammar₁ hdefined
  · rcases hsame with hsame | ⟨hne, rfl⟩
    · -- nothing got deeper
      have hgrammar₁ := hchange _ (Nat.le_refl _) hsame
      rw [← hlength] at hgrammar₁
      exact Or.inl (within_addDefinitions hdefinitions hgrammar₁ hdefined)
    · -- a list at the deepest level got its first reference
      rw [rulesRoute, List.length_append, List.length_singleton] at hlength
      exact Or.inr ⟨fun hnil => hne (by rw [hnil]; rfl), by omega⟩

/-! ## All three of them -/

/-- The syntax files of a scheme with no setting that nests too deep. -/
theorem within_build {base : Option BaseColours} {ids : Ids} {files : SyntaxFiles}
    (hsettings : scheme.settings.Each (Within (maxDepth - 2)))
    (hbase : ∀ colours ∈ base, colours.Each (Within (maxDepth - 4)))
    (h : build fs scheme rules directory base ids = .ok files) (kind : Kind) :
    Within (maxDepth + 1) (files.get kind) ∧
      (Within maxDepth (files.get kind) ∨ kind = .grammar ∧ rules ≠ [] ∧
        ∃ d, scheme.derivation = some d ∧ (Json.route d.scope).length = maxDepth - 2) := by
  have hin : ∀ {doc : Json} {P : Prop}, Within maxDepth doc →
      Within (maxDepth + 1) doc ∧ (Within maxDepth doc ∨ P) :=
    fun h => ⟨h.mono (Nat.le_succ _), Or.inl h⟩
  rw [build] at h
  split at h
  · next d hd =>
    -- extended documents, of which only the grammar can become too deep
    obtain ⟨targets, grammar, theme, settings, _, _, hgrammar, htheme, hsettings', hextended,
      hnewtheme, hnewsettings⟩ := extending_ok_iff.mp h
    cases kind with
    | grammar =>
      obtain ⟨hdeeper, hsame⟩ := within_extendGrammar hextended (within_documentAt hgrammar)
      exact ⟨hdeeper, hsame.imp_right fun ⟨hne, hlength⟩ => ⟨rfl, hne, d, hd, hlength⟩⟩
    | theme =>
      rw [get, hnewtheme]
      exact hin (within_extendTheme (within_documentAt htheme) _)
    | settings =>
      rw [get, hnewsettings]
      have hoverlay := hsettings.mono fun v hv => hv.mono (Nat.le_succ _)
      exact hin (within_extendSettings (within_documentAt hsettings') hoverlay _)
  · obtain rfl := Except.ok.inj h
    cases kind with
    | grammar => exact hin ((within_newGrammar _).mono (by decide))
    | theme =>
      have hcolours : (base.getD .default).Each (Within (maxDepth - 4)) := by
        cases base with
        | none => exact each_default
        | some colours => exact hbase colours rfl
      exact hin (within_newTheme hcolours _)
    | settings => exact hin ((within_newSettings hsettings).mono (Nat.le_succ _))

end Highlight.SyntaxFiles
