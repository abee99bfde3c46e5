import Cheshire.Srw.XcqlReading

/-!
# Reading back what `toXCQL` wrote

The text of a query goes through a parser of XML, which refuses characters that XML does not know.  So
a query comes back exactly if its document can be read and all its characters are known.
-/

namespace Cheshire.Srw

open Lib.Xml XcqlParser

variable {lowerCase : LowerCase}

/-- `xmlparse` gives back what `toXCQL` wrote. -/
def RoundTrips (lowerCase : LowerCase) (parseString : PyStr → Option Node) (query : CqlQuery) : Prop :=
  ∃ text object, query.toXCQL 0 = .ok text ∧
    xmlparse parseString lowerCase text = .ok object ∧ SameQuery lowerCase query object

def LegalText (s : PyStr) : Prop := ∀ c ∈ s, IsXmlChar c

/-- A text that a parser of XML gives back as it is. -/
def PlainText (s : PyStr) : Prop := Kept s ∧ LegalText s

theorem isText_leaf (localName : String) (s : PyStr) : ¬ IsText (leaf localName s) := id

theorem isText_block (depth : ℕ) (localName : String) (nodes : List Node) :
    ¬ IsText (block depth localName nodes) := id

theorem normalAll_indented {depth : ℕ} {nodes : List Node}
    (hnodes : ∀ node ∈ nodes, node.Normal ∧ ¬ IsText node) : NormalAll (indented depth nodes) := by
  have hindent : ∀ depth, (indent depth).Normal := fun depth ↦ List.cons_ne_nil _ _
  induction nodes with
  | nil => exact ⟨hindent depth, by simp, trivial⟩
  | cons node nodes hrest =>
    rw [List.forall_mem_cons] at hnodes
    refine ⟨hindent _, fun _ next hnext ↦ ?_, hnodes.1.1, fun htext ↦ absurd htext hnodes.1.2,
      hrest hnodes.2⟩
    cases Option.some.inj hnext
    exact hnodes.1.2

theorem legalAll_indented (depth : ℕ) (nodes : List Node) :
    LegalAll (indented depth nodes) ↔ ∀ node ∈ nodes, node.Legal := by
  have hindent : ∀ depth, (indent depth).Legal := by
    intro depth c hc
    rcases List.mem_cons.mp hc with rfl | hc
    · exact .inr (.inl rfl)
    · have hspace : ¬ depth = 0 ∧ c = ' ' := by simpa [space] using hc
      exact hspace.2 ▸ isXmlChar_of_lt (by decide)
  induction nodes with
  | nil => exact iff_of_true ⟨hindent depth, trivial⟩ (List.forall_mem_nil _)
  | cons node nodes hrest =>
    exact (and_iff_right (hindent _)).trans
      ((and_congr_right' hrest).trans List.forall_mem_cons.symm)

variable {localName : String}

theorem isName_of_all (hne : localName.toList ≠ [])
    (hall : localName.toList.all Char.isAlpha = true) : IsName localName :=
  ⟨hne, List.all_eq_true.mp hall⟩

theorem normal_leaf (hname : IsName localName) (s : PyStr) : (leaf localName s).Normal := by
  refine ⟨hname, ?_⟩
  unfold texts
  split_ifs with hs
  · trivial
  · exact ⟨hs, by simp, trivial⟩

theorem legal_leaf (localName : String) (s : PyStr) : (leaf localName s).Legal ↔ LegalText s := by
  change LegalAll (texts s) ↔ _
  unfold texts
  split_ifs with hs
  · exact iff_of_true trivial (hs ▸ List.forall_mem_nil _)
  · exact and_iff_left trivial

theorem normal_block {depth : ℕ} {nodes : List Node} (hname : IsName localName)
    (hnodes : ∀ node ∈ nodes, node.Normal ∧ ¬ IsText node) : (block depth localName nodes).Normal :=
  ⟨hname, normalAll_indented hnodes⟩

theorem legal_block (depth : ℕ) (localName : String) (nodes : List Node) :
    (block depth localName nodes).Legal ↔ ∀ node ∈ nodes, node.Legal :=
  legalAll_indented depth nodes

theorem normal_prefixesDocument (depth : ℕ) (dict : Prefixes) :
    ∀ node ∈ prefixesDocument depth dict, node.Normal ∧ ¬ IsText node := by
  unfold prefixesDocument
  split_ifs
  · exact List.forall_mem_nil _
  · rw [List.forall_mem_singleton]
    refine ⟨normal_block (isName_of_all (by decide) rfl) ?_, isText_block _ _ _⟩
    rw [List.forall_mem_map]
    intro p _
    refine ⟨normal_block (isName_of_all (by decide) rfl) ?_, isText_block _ _ _⟩
    simp only [List.forall_mem_cons]
    exact ⟨⟨normal_leaf (isName_of_all (by decide) rfl) _, isText_leaf _ _⟩,
      ⟨normal_leaf (isName_of_all (by decide) rfl) _, isText_leaf _ _⟩, List.forall_mem_nil _⟩

theorem normal_relationDocument (depth : ℕ) (r : Relation) : (relationDocument depth r).Normal := by
  refine normal_block (isName_of_all (by decide) rfl) ?_
  refine List.forall_mem_cons.mpr ⟨⟨normal_leaf (isName_of_all (by decide) rfl) _, isText_leaf _ _⟩, ?_⟩
  split_ifs
  · exact List.forall_mem_nil _
  · rw [List.forall_mem_singleton]
    refine ⟨normal_block (isName_of_all (by decide) rfl) ?_, isText_block _ _ _⟩
    rw [List.forall_mem_map]
    exact fun m _ ↦ ⟨⟨isName_of_all (by decide) rfl, normal_leaf (isName_of_all (by decide) rfl) m,
      False.elim, trivial⟩, id⟩

theorem normal_booleanDocument (depth : ℕ) (b : Boolean) : (booleanDocument depth b).Normal := by
  refine normal_block (isName_of_all (by decide) rfl) ?_
  refine List.forall_mem_cons.mpr ⟨⟨normal_leaf (isName_of_all (by decide) rfl) _, isText_leaf _ _⟩, ?_⟩
  split_ifs
  · exact List.forall_mem_nil _
  · rw [List.forall_mem_singleton]
    refine ⟨normal_block (isName_of_all (by decide) rfl) ?_, isText_block _ _ _⟩
    rw [List.forall_mem_map]
    exact fun m _ ↦ ⟨⟨isName_of_all (by decide) rfl, normal_leaf (isName_of_all (by decide) rfl) _,
      False.elim, normal_leaf (isName_of_all (by decide) rfl) _, False.elim, trivial⟩, id⟩

theorem normal_document (query : CqlQuery) (depth : ℕ) :
    (document query depth).Normal ∧ ¬ IsText (document query depth) := by
  induction query generalizing depth with
  | searchClause sc =>
    refine ⟨normal_block (isName_of_all (by decide) rfl) ?_, isText_block _ _ _⟩
    rw [List.forall_mem_append]
    refine ⟨normal_prefixesDocument depth sc.prefixes, ?_⟩
    simp only [List.forall_mem_cons]
    exact ⟨⟨normal_leaf (isName_of_all (by decide) rfl) _, isText_leaf _ _⟩,
      ⟨normal_relationDocument _ _, isText_block _ _ _⟩,
      ⟨normal_leaf (isName_of_all (by decide) rfl) _, isText_leaf _ _⟩, List.forall_mem_nil _⟩
  | triple dict leftOperand b rightOperand hleft hright =>
    refine ⟨normal_block (isName_of_all (by decide) rfl) ?_, isText_block _ _ _⟩
    rw [List.forall_mem_append]
    refine ⟨normal_prefixesDocument depth dict, ?_⟩
    simp only [List.forall_mem_cons]
    exact ⟨⟨normal_booleanDocument _ _, isText_block _ _ _⟩,
      ⟨normal_block (isName_of_all (by decide) rfl) (List.forall_mem_singleton.mpr (hleft _)),
        isText_block _ _ _⟩,
      ⟨normal_block (isName_of_all (by decide) rfl) (List.forall_mem_singleton.mpr (hright _)),
        isText_block _ _ _⟩, List.forall_mem_nil _⟩

theorem legal_prefixesDocument (depth : ℕ) (dict : Prefixes) :
    (∀ node ∈ prefixesDocument depth dict, node.Legal) ↔
      ∀ name identifier, dict.lookup name = some identifier → LegalText name ∧ LegalText identifier := by
  have hentry : ∀ name identifier, dict.lookup name = some identifier ↔
      Sigma.mk name identifier ∈ dict.entries := fun name identifier ↦ AList.mem_lookup_iff
  have hentries : (∀ p ∈ dict.entries, LegalText p.1 ∧ LegalText p.2) ↔
      ∀ name identifier, dict.lookup name = some identifier → LegalText name ∧ LegalText identifier := by
    simp only [hentry]
    exact ⟨fun h name identifier hp ↦ h ⟨name, identifier⟩ hp, fun h p hp ↦ h p.1 p.2 hp⟩
  rw [← hentries]
  unfold prefixesDocument
  split_ifs with hempty
  · rw [hempty]
    simp
  · rw [List.forall_mem_singleton, legal_block, List.forall_mem_map]
    refine forall₂_congr fun p _ ↦ ?_
    simp [legal_block, legal_leaf]

theorem legal_relationDocument (depth : ℕ) (r : Relation) (hmodifiers : r.modifiers = []) :
    (relationDocument depth r).Legal ↔ LegalText r.value := by
  rw [relationDocument, if_pos hmodifiers, legal_block, List.forall_mem_singleton, legal_leaf]

theorem legalText_type (i : ℕ) : LegalText (booleanModifierTypes[i]?.getD []) := by
  have hall : ∀ type ∈ booleanModifierTypes, type.all Char.isAlpha = true := by decide
  cases htype : booleanModifierTypes[i]? with
  | none => exact List.forall_mem_nil _
  | some type =>
    have hletters := List.all_eq_true.mp (hall type (List.mem_of_getElem? htype))
    exact fun c hc ↦ isXmlChar_of_isAlpha (hletters c hc)

theorem legal_modifierDocument (m : PyStr × ℕ) : (modifierDocument m).Legal ↔ LegalText m.1 := by
  change (leaf "type" _).Legal ∧ (leaf "value" m.1).Legal ∧ True ↔ _
  rw [legal_leaf, legal_leaf, and_true]
  exact and_iff_right (legalText_type m.2)

theorem legal_booleanDocument (depth : ℕ) (b : Boolean) : (booleanDocument depth b).Legal ↔
    LegalText b.value ∧ ∀ m ∈ b.modifiers, m ≠ [] → LegalText m := by
  have hmodifiers : (∀ m ∈ givenModifiers b, LegalText m.1) ↔
      ∀ m ∈ b.modifiers, m ≠ [] → LegalText m := by
    constructor
    · intro hlegal m hm hgiven
      obtain ⟨i, hi⟩ := List.mem_iff_getElem?.mp hm
      exact hlegal (m, i + 1) ((mem_givenModifiers b m _).mpr ⟨hgiven, by omega, hi⟩)
    · intro hlegal m hm
      obtain ⟨hgiven, _, hi⟩ := (mem_givenModifiers b m.1 m.2).mp hm
      exact hlegal m.1 (List.mem_of_getElem? hi) hgiven
  rw [booleanDocument, legal_block, List.forall_mem_cons, legal_leaf, ← hmodifiers]
  refine and_congr_right' ?_
  split_ifs with hgiven
  · rw [hgiven]
    exact iff_of_true (List.forall_mem_nil _) (List.forall_mem_nil _)
  · rw [List.forall_mem_singleton, legal_block, List.forall_mem_map]
    exact forall₂_congr fun m _ ↦ legal_modifierDocument m

theorem readablePrefixes_plain_iff (dict : Prefixes) :
    ReadablePrefixes lowerCase PlainText dict ↔ ReadablePrefixes lowerCase Kept dict ∧
      ∀ name identifier, dict.lookup name = some identifier →
        LegalText name ∧ LegalText identifier := by
  constructor
  · rintro ⟨hplain, hagree⟩
    exact ⟨⟨fun name identifier h ↦ ⟨(hplain name identifier h).1.1, (hplain name identifier h).2.1⟩,
      hagree⟩, fun name identifier h ↦ ⟨(hplain name identifier h).1.2, (hplain name identifier h).2.2⟩⟩
  · rintro ⟨⟨hkept, hagree⟩, hlegal⟩
    exact ⟨fun name identifier h ↦ ⟨⟨(hkept name identifier h).1, (hlegal name identifier h).1⟩,
      (hkept name identifier h).2, (hlegal name identifier h).2⟩, hagree⟩

theorem readableBoolean_plain_iff (b : Boolean) :
    ReadableBoolean PlainText b ↔ ReadableBoolean Kept b ∧
      LegalText b.value ∧ ∀ m ∈ b.modifiers, m ≠ [] → LegalText m := by
  constructor
  · rintro ⟨hvalue, hmodifiers⟩
    rcases hmodifiers with hnil | ⟨hlength, hsome, hplain⟩
    · exact ⟨⟨hvalue.1, .inl hnil⟩, hvalue.2, fun m hm ↦ absurd (hnil ▸ hm) List.not_mem_nil⟩
    · exact ⟨⟨hvalue.1, .inr ⟨hlength, hsome, fun m hm hne ↦ (hplain m hm hne).1⟩⟩, hvalue.2,
        fun m hm hne ↦ (hplain m hm hne).2⟩
  · rintro ⟨⟨hvalue, hmodifiers⟩, hlegal, hlegalModifiers⟩
    rcases hmodifiers with hnil | ⟨hlength, hsome, hkept⟩
    · exact ⟨⟨hvalue, hlegal⟩, .inl hnil⟩
    · exact ⟨⟨hvalue, hlegal⟩, .inr ⟨hlength, hsome, fun m hm hne ↦
        ⟨hkept m hm hne, hlegalModifiers m hm hne⟩⟩⟩

theorem readableQuery_plain_iff (query : CqlQuery) (depth : ℕ) :
    ReadableQuery lowerCase PlainText query ↔
      ReadableQuery lowerCase Kept query ∧ (document query depth).Legal := by
  induction query generalizing depth with
  | searchClause sc =>
    rw [ReadableQuery, ReadableQuery, readablePrefixes_plain_iff, document, legal_block,
      List.forall_mem_append, legal_prefixesDocument]
    simp only [List.forall_mem_cons, legal_leaf, PlainText]
    constructor
    · rintro ⟨⟨hprefixes, hlegal⟩, hindex, hvalue, hmodifiers, hterm⟩
      exact ⟨⟨hprefixes, hindex.1, hvalue.1, hmodifiers, hterm.1⟩, hlegal, hindex.2,
        (legal_relationDocument _ _ hmodifiers).mpr hvalue.2, hterm.2, List.forall_mem_nil _⟩
    · rintro ⟨⟨hprefixes, hindex, hvalue, hmodifiers, hterm⟩, hlegal, hlegalIndex, hlegalRelation,
        hlegalTerm, _⟩
      exact ⟨⟨hprefixes, hlegal⟩, ⟨hindex, hlegalIndex⟩,
        ⟨hvalue, (legal_relationDocument _ _ hmodifiers).mp hlegalRelation⟩, hmodifiers, hterm,
        hlegalTerm⟩
  | triple dict leftOperand b rightOperand hleft hright =>
    rw [ReadableQuery, ReadableQuery, readablePrefixes_plain_iff, readableBoolean_plain_iff,
      hleft (depth + 2), hright (depth + 2), document, legal_block, List.forall_mem_append,
      legal_prefixesDocument]
    simp only [List.forall_mem_cons, legal_block, legal_booleanDocument]
    constructor
    · rintro ⟨⟨hprefixes, hlegal⟩, ⟨hboolean, hlegalBoolean⟩, ⟨hleft, hlegalLeft⟩, hright, hlegalRight⟩
      exact ⟨⟨hprefixes, hboolean, hleft, hright⟩, hlegal, hlegalBoolean, ⟨hlegalLeft, List.forall_mem_nil _⟩,
        ⟨hlegalRight, List.forall_mem_nil _⟩, List.forall_mem_nil _⟩
    · rintro ⟨⟨hprefixes, hboolean, hleft, hright⟩, hlegal, hlegalBoolean, ⟨hlegalLeft, _⟩,
        ⟨hlegalRight, _⟩, _⟩
      exact ⟨⟨hprefixes, hlegal⟩, ⟨hboolean, hlegalBoolean⟩, ⟨hleft, hlegalLeft⟩, hright, hlegalRight⟩

variable {query : CqlQuery}

theorem typedQuery_of_readable {P : PyStr → Prop}
    (h : ReadableQuery lowerCase P query) : TypedQuery query := by
  induction query with
  | searchClause sc => trivial
  | triple dict leftOperand b rightOperand hleft hright =>
    exact ⟨hleft h.2.2.1, typed_of_readableBoolean h.2.1, hright h.2.2.2⟩

section Library

variable {parseString : PyStr → Option Node} (hxml : ParsesXml parseString)
include hxml

theorem parseString_line (hlegal : (document query 0).Legal) :
    parseString (line 0 (document query 0)) = some (document query 0).lineEnds := by
  have hnormal := (normal_document query 0).1
  have hchars := (isXmlChar_render_iff hnormal).mpr hlegal
  obtain ⟨localName, childNodes, helement⟩ := document_element query 0
  rw [helement] at hnormal hchars ⊢
  exact hxml.reads localName childNodes ['\n'] hnormal hchars (by simp [IsBlank])

theorem legal_of_parseString {doc : Node}
    (hdoc : parseString (line 0 (document query 0)) = some doc) : (document query 0).Legal := by
  rw [← isXmlChar_render_iff (normal_document query 0).1]
  intro c hc
  by_contra hbad
  have hmem : c ∈ line 0 (document query 0) := by
    rw [line]
    simp [hc]
  rw [hxml.refuses _ ⟨c, hmem, hbad⟩] at hdoc
  cases hdoc

theorem readable_of_roundTrips (hround : RoundTrips lowerCase parseString query) :
    ReadableQuery lowerCase PlainText query := by
  obtain ⟨text, object, htext, hobject, hsame⟩ := hround
  obtain ⟨htyped, hline⟩ := (toXCQL_eq_ok_iff query 0 text).mp htext
  subst hline
  rw [xmlparse] at hobject
  cases hdoc : parseString (line 0 (document query 0)) with
  | none =>
    rw [hdoc] at hobject
    cases hobject
  | some doc =>
    have hlegal := legal_of_parseString hxml hdoc
    rw [parseString_line hxml hlegal] at hobject
    rw [readableQuery_plain_iff query 0]
    exact ⟨(operand_iff htyped 0).mp ⟨object, hobject, hsame⟩, hlegal⟩

theorem roundTrips_of_readable (hreadable : ReadableQuery lowerCase PlainText query) :
    RoundTrips lowerCase parseString query := by
  obtain ⟨hkept, hlegal⟩ := (readableQuery_plain_iff query 0).mp hreadable
  have htyped := typedQuery_of_readable hkept
  obtain ⟨object, hobject, hsame⟩ := (operand_iff htyped 0).mpr hkept
  refine ⟨_, object, (toXCQL_eq_ok_iff query 0 _).mpr ⟨htyped, rfl⟩, ?_, hsame⟩
  rw [xmlparse, parseString_line hxml hlegal]
  exact hobject

end Library

/-- A query is read back from the text that `toXCQL` writes exactly if it is readable with plain
texts. -/
theorem roundTrips_iff (parseString : PyStr → Option Node) (hxml : ParsesXml parseString)
    (lowerCase : LowerCase) (query : CqlQuery) :
    RoundTrips lowerCase parseString query ↔ ReadableQuery lowerCase PlainText query :=
  ⟨readable_of_roundTrips hxml, roundTrips_of_readable hxml⟩

/-- The query `dc.title = "fish"`, with modifiers of the relation. -/
def fishQuery (modifiers : List PyStr) : CqlQuery :=
  .searchClause ⟨∅, "dc.title".toList, ⟨"=".toList, modifiers⟩, "fish".toList⟩

theorem readable_fishQuery : ReadableQuery .ascii PlainText (fishQuery []) := by
  have hplain {s : PyStr} (hne : s ≠ []) (hchars : s.all fun c ↦ 32 ≤ c.toNat && c.toNat < 128) :
      PlainText s := by
    have hrange : ∀ c ∈ s, 32 ≤ c.toNat ∧ c.toNat < 128 := by
      simpa using hchars
    exact ⟨⟨hne, fun hcr ↦ absurd (hrange _ hcr).1 (by decide)⟩,
      fun c hc ↦ isXmlChar_of_lt (hrange c hc)⟩
  exact ⟨⟨by simp, by simp⟩, hplain (by decide) rfl, hplain (by decide) rfl, rfl, hplain (by decide) rfl⟩

theorem roundTrips_fishQuery : RoundTrips .ascii parse (fishQuery []) :=
  (roundTrips_iff parse parsesXml_parse .ascii (fishQuery [])).mpr readable_fishQuery

/-- A relation with a modifier is not read back. -/
theorem roundTrips_relevant : ¬ RoundTrips .ascii parse (fishQuery ["relevant".toList]) := by
  intro hround
  have hmodifiers : ["relevant".toList] = [] := (readable_of_roundTrips parsesXml_parse hround).2.2.2.1
  exact List.cons_ne_nil _ _ hmodifiers

end Cheshire.Srw
