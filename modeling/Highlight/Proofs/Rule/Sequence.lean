import Highlight.Proofs.Rule.Batch
import Highlight.SyntaxFiles.Extended

/-!
# Batches that go on counting

Several batches may be made one after another, each numbered from where the one before ended. The
numbers then run on without a gap: the rule at place `i` of the whole sequence has the number
`n + i`. Since the number can be read off an identifier, no two rules of the sequence share one,
whatever their keywords are and whichever batch they belong to.

An identifier is letters and then digits, so that it holds no dot. A published scope can therefore
be cut at its first dot, and tells both the identifier and the scheme, whose name may hold dots.
-/

namespace Highlight.Rule

/-- What one batch is made of. -/
structure Request where
  keywords : Keywords
  lists : KeywordLists
  /-- The random words it draws from, whether left over by the batch before or not. -/
  entropy : Entropy

/-- The rules of several requests, numbered from `n` on, and the number the next rule would get. -/
def batches : List Request → (n : Nat) → List Rule × Nat
  | [], n => ([], n)
  | request :: rest, n =>
    let first := batch request.keywords request.lists n request.entropy
    let others := batches rest first.next
    (first.rules ++ others.1, others.2)

/-- Letters followed by at least one digit. -/
def IsIdentifier (text : String) : Prop :=
  ∃ letters digits : List Char, text.toList = letters ++ digits ∧ digits ≠ [] ∧
    (∀ c ∈ letters, c.isAlpha = true) ∧ ∀ c ∈ digits, c.isDigit = true

/-! ## Numbers -/

theorem batch_next (keywords : Keywords) (lists : KeywordLists) (n : Nat) (e : Entropy) :
    (batch keywords lists n e).next = n + (batch keywords lists n e).rules.length := rfl

theorem identifier_batch {keywords : Keywords} {lists : KeywordLists} {n i : Nat} {e : Entropy}
    {rule : Rule} (h : (batch keywords lists n e).rules[i]? = some rule) :
    rule.identifier = identifierOf rule.keyword (n + i) := by
  obtain ⟨style, words, _, hrule⟩ := exists_of_getElem?_makeAll h
  rw [hrule, make_identifier, make_keyword]

theorem batches_next (requests : List Request) (n : Nat) :
    (batches requests n).2 = n + (batches requests n).1.length := by
  induction requests generalizing n with
  | nil => rfl
  | cons request rest ih =>
    simp only [batches, List.length_append]
    rw [ih, batch_next]
    omega

/-- The numbers run on from batch to batch. -/
theorem identifier_batches {requests : List Request} {n i : Nat} {rule : Rule}
    (h : (batches requests n).1[i]? = some rule) :
    rule.identifier = identifierOf rule.keyword (n + i) := by
  induction requests generalizing n i with
  | nil => simp [batches] at h
  | cons request rest ih =>
    simp only [batches] at h
    rcases Nat.lt_or_ge i (batch request.keywords request.lists n request.entropy).rules.length
      with hlt | hge
    · rw [List.getElem?_append_left hlt] at h
      exact identifier_batch h
    · -- past the first batch the place counts from that batch's end, and so does the number
      rw [List.getElem?_append_right hge] at h
      have hrest := ih h
      rw [batch_next] at hrest
      rw [hrest]
      congr 1
      omega

theorem nodup_identifiers_batches (requests : List Request) (n : Nat) :
    ((batches requests n).1.map (·.identifier)).Nodup := by
  rw [List.nodup_iff_getElem?_ne_getElem?]
  intro i j hij hj heq
  rw [List.length_map] at hj
  have hi : i < (batches requests n).1.length := Nat.lt_trans hij hj
  have hidi := identifier_batches (List.getElem?_eq_getElem hi)
  have hidj := identifier_batches (List.getElem?_eq_getElem hj)
  simp only [List.getElem?_map, List.getElem?_eq_getElem hi, List.getElem?_eq_getElem hj,
    Option.map_some, Option.some.injEq] at heq
  have hnumber := identifierOf_number_inj (hidi.symm.trans (heq.trans hidj))
  omega

/-! ## Letters and digits -/

theorem isIdentifier_identifierOf (keyword : String) (n : Nat) :
    IsIdentifier (identifierOf keyword n) := by
  refine ⟨_, _, toList_identifierOf keyword n, Nat.toDigits_ne_nil, ?_, ?_⟩
  · intro c hc
    exact (List.mem_filter.mp hc).2
  · intro c hc
    exact Nat.isDigit_of_mem_toDigits (by decide) (by decide) hc

theorem isIdentifier_of_mem_batches {requests : List Request} {n : Nat} {rule : Rule}
    (h : rule ∈ (batches requests n).1) : IsIdentifier rule.identifier := by
  obtain ⟨i, hi⟩ := List.mem_iff_getElem?.mp h
  rw [identifier_batches hi]
  exact isIdentifier_identifierOf rule.keyword (n + i)

theorem IsIdentifier.not_mem_dot {text : String} (h : IsIdentifier text) : '.' ∉ text.toList := by
  obtain ⟨letters, digits, heq, _, hletters, hdigits⟩ := h
  rw [heq, List.mem_append]
  rintro (hdot | hdot)
  · exact absurd (hletters _ hdot) (by decide)
  · exact absurd (hdigits _ hdot) (by decide)

/-- The identifier is what a published scope holds up to its first dot. -/
theorem takeWhile_publishedScope {rule : Rule} (h : IsIdentifier rule.identifier)
    (scheme : String) :
    (SyntaxFiles.publishedScope rule scheme).toList.takeWhile (· ≠ '.')
      = rule.identifier.toList := by
  have hpos : ∀ c ∈ rule.identifier.toList, decide (c ≠ '.') = true := by
    intro c hc
    have hne : c ≠ '.' := by
      rintro rfl
      exact h.not_mem_dot hc
    simp [hne]
  have hdot : ".".toList = ['.'] := rfl
  simp only [SyntaxFiles.publishedScope, String.toList_append, hdot, List.append_assoc]
  rw [List.takeWhile_append_of_pos hpos, List.singleton_append,
    List.takeWhile_cons_of_neg (by simp), List.append_nil]

theorem publishedScope_inj {rule rule' : Rule} {scheme scheme' : String}
    (h : IsIdentifier rule.identifier) (h' : IsIdentifier rule'.identifier) :
    SyntaxFiles.publishedScope rule scheme = SyntaxFiles.publishedScope rule' scheme' ↔
      rule.identifier = rule'.identifier ∧ scheme = scheme' := by
  constructor
  · intro heq
    have hid : rule.identifier = rule'.identifier := by
      rw [← String.toList_inj, ← takeWhile_publishedScope h scheme, heq,
        takeWhile_publishedScope h']
    have hlist := congrArg String.toList heq
    simp only [SyntaxFiles.publishedScope, String.toList_append, hid] at hlist
    exact ⟨hid, String.toList_inj.mp (List.append_cancel_left hlist)⟩
  · rintro ⟨hid, rfl⟩
    rw [SyntaxFiles.publishedScope, SyntaxFiles.publishedScope, hid]

/--
**Identifiers never clash.** However many batches are made one after another, each numbered from
where the one before ended, all identifiers of the whole sequence are distinct, each is letters
followed by digits, and the number handed on has grown by the number of rules. So the scopes that
two rules are published under, of one sequence or of two, under any names of schemes, are the same
only if both the identifiers and the schemes are.
-/
theorem identifiers_never_clash (requests : List Request) (n : Nat) :
    let rules := (batches requests n).1
    (rules.map (·.identifier)).Nodup ∧ (∀ rule ∈ rules, IsIdentifier rule.identifier) ∧
      (batches requests n).2 = n + rules.length ∧
      ∀ rule ∈ rules, ∀ (requests' : List Request) (n' : Nat), ∀ rule' ∈ (batches requests' n').1,
        ∀ scheme scheme' : String,
          SyntaxFiles.publishedScope rule scheme = SyntaxFiles.publishedScope rule' scheme' ↔
            rule.identifier = rule'.identifier ∧ scheme = scheme' := by
  intro rules
  refine ⟨nodup_identifiers_batches requests n, ?_, batches_next requests n, ?_⟩
  · intro rule hrule
    exact isIdentifier_of_mem_batches hrule
  · intro rule hrule requests' n' rule' hrule' scheme scheme'
    exact publishedScope_inj (isIdentifier_of_mem_batches hrule)
      (isIdentifier_of_mem_batches hrule')

/-- Keywords with the same letters in two batches, and schemes whose names hold dots. -/
theorem identifiers_never_clash_of_two_batches :
    let style := Style.full {}
    let requests : List Request := [⟨[("foo1", style), ("f-o-o", style)], {}, ⟨fun _ => 0, 0⟩⟩,
      ⟨[("1foo", style)], { random := ["foo"] }, ⟨fun _ => 0, 0⟩⟩]
    (batches requests 9).1.map (·.identifier) = ["foo9", "foo10", "foo11", "foo12"] ∧
      (batches requests 9).2 = 13 ∧
      ∃ rule ∈ (batches requests 9).1, ∃ rule' ∈ (batches requests 9).1,
        rule.identifier = "foo9" ∧ rule'.identifier = "foo10" ∧
          SyntaxFiles.publishedScope rule "a.foo10" ≠ SyntaxFiles.publishedScope rule' "a" := by
  intro style requests
  obtain ⟨_, _, hnext, hscopes⟩ := identifiers_never_clash requests 9
  have hidentifiers : (batches requests 9).1.map (·.identifier)
      = ["foo9", "foo10", "foo11", "foo12"] := by decide +kernel
  have hlength : (batches requests 9).1.length = 4 := by
    rw [← List.length_map (·.identifier), hidentifiers]
    rfl
  have hmem : ∀ id ∈ ["foo9", "foo10", "foo11", "foo12"], ∃ rule ∈ (batches requests 9).1,
      rule.identifier = id := by
    intro id hid
    exact List.mem_map.mp (hidentifiers ▸ hid)
  -- two rules of the first batch, published under scopes that a dot could make the same
  obtain ⟨rule, hrule, hid⟩ := hmem "foo9" (by decide)
  obtain ⟨rule', hrule', hid'⟩ := hmem "foo10" (by decide)
  refine ⟨hidentifiers, ?_, rule, hrule, rule', hrule', hid, hid', ?_⟩
  · rw [hnext, hlength]
  · intro heq
    have hsame := (hscopes rule hrule requests 9 rule' hrule' "a.foo10" "a").mp heq
    rw [hid, hid'] at hsame
    exact absurd hsame.1 (by decide)

end Highlight.Rule
