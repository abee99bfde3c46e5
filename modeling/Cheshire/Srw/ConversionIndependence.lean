import Cheshire.Srw.ToCheshire

/-!
# Conversions one after another

A conversion adjusts the attribute lists of the configuration to its own clauses, and later
conversions meet them adjusted.  Lists only grow this way: an attribute is added, or a value is set
that later conversions set again.  So a sequence of conversions leaves the tables as they were only if
every single clause that is reached finds its list as it wants it; then every conversion gives what it
gives alone.  Whether a clause is reached never depends on the tables.
-/

namespace Cheshire.Srw

open PyStr

/-- The list is the old one with further attributes behind, up to values for words. -/
def Grown (old new : List Attribute) : Prop :=
  old.length ≤ new.length ∧ ∀ (i : ℕ) attr, old[i]? = some attr →
    new[i]? = some attr ∨ new[i]? = some (wordAttribute attr)

theorem wordAttribute_wordAttribute (attr : Attribute) :
    wordAttribute (wordAttribute attr) = wordAttribute attr := by
  unfold wordAttribute
  split_ifs <;> simp_all

variable (attributes : List Attribute)

theorem Grown.refl : Grown attributes attributes :=
  ⟨le_rfl, fun _ _ hattr ↦ .inl hattr⟩

theorem Grown.trans {first second third : List Attribute} (h : Grown first second)
    (h' : Grown second third) : Grown first third := by
  refine ⟨h.1.trans h'.1, ?_⟩
  intro i attr hattr
  rcases h.2 i attr hattr with hsame | hword
  · exact h'.2 i attr hsame
  · rcases h'.2 i _ hword with hthird | hthird
    · exact .inr hthird
    · rw [wordAttribute_wordAttribute] at hthird
      exact .inr hthird

theorem Grown.antisymm {old new : List Attribute} (h : Grown old new) (h' : Grown new old) :
    new = old := by
  apply List.ext_getElem?
  intro i
  cases hold : old[i]? with
  | none =>
    rw [List.getElem?_eq_none_iff] at hold ⊢
    exact h'.1.trans hold
  | some attr =>
    rcases h.2 i attr hold with hnew | hnew
    · exact hnew
    · rw [hnew]
      rcases h'.2 i _ hnew with hback | hback
      · rw [← hback, hold]
      · rw [wordAttribute_wordAttribute, hold] at hback
        exact hback.symm

theorem Grown.append (attributes more : List Attribute) : Grown attributes (attributes ++ more) := by
  refine ⟨by rw [List.length_append]; omega, ?_⟩
  intro i attr hattr
  rw [List.getElem?_append_left (List.getElem?_eq_some_iff.mp hattr).1]
  exact .inl hattr

theorem Grown.map : Grown attributes (attributes.map wordAttribute) := by
  refine ⟨by rw [List.length_map], ?_⟩
  intro i attr hattr
  rw [List.getElem?_map, hattr]
  exact .inr rfl

variable (sc : SearchClause)

theorem grown_adjust (attributes : List Attribute) : Grown attributes (adjust sc attributes) := by
  unfold adjust
  split_ifs
  · exact (Grown.append _ _).trans (Grown.map _)
  · exact Grown.append _ _
  · exact Grown.map _
  · exact Grown.refl _

/-- The list is as the clause wants it. -/
def Suits (sc : SearchClause) (attributes : List Attribute) : Prop :=
  (sc.relation.value = "exact".toList → exactAttribute ∈ attributes) ∧
    ((isWordRelation sc || isWordEquality sc) = true → ∀ attr ∈ attributes,
      (attr.type = .str "3".toList → attr.value = .str "3".toList) ∧
        (attr.type = .str "4".toList → attr.value = .str "6".toList))

theorem wordAttribute_eq_iff (attr : Attribute) : wordAttribute attr = attr ↔
    (attr.type = .str "3".toList → attr.value = .str "3".toList) ∧
      (attr.type = .str "4".toList → attr.value = .str "6".toList) := by
  rcases attr with ⟨set, type, value⟩
  unfold wordAttribute
  dsimp only
  split_ifs with h3 h4
  · subst h3
    simp [eq_comm]
  · subst h4
    simp [eq_comm]
  · exact iff_of_true rfl ⟨fun htype ↦ absurd htype h3, fun htype ↦ absurd htype h4⟩

theorem map_wordAttribute_eq_iff : attributes.map wordAttribute = attributes ↔ ∀ attr ∈ attributes,
      (attr.type = .str "3".toList → attr.value = .str "3".toList) ∧
        (attr.type = .str "4".toList → attr.value = .str "6".toList) := by
  conv_lhs => rw [← List.map_id attributes, List.map_map, List.map_inj_left]
  exact forall₂_congr fun attr _ ↦ wordAttribute_eq_iff attr

theorem adjust_eq_iff (attributes : List Attribute) :
    adjust sc attributes = attributes ↔ Suits sc attributes := by
  have hlonger : attributes ++ [exactAttribute] ≠ attributes := by simp
  rw [Suits, ← map_wordAttribute_eq_iff]
  unfold adjust
  by_cases hexact : sc.relation.value = "exact".toList ∧ exactAttribute ∉ attributes
  · rw [if_pos hexact]
    refine iff_of_false ?_ fun hsuits ↦ hexact.2 (hsuits.1 hexact.1)
    split_ifs
    · intro heq
      have hlength := congrArg List.length heq
      rw [List.length_map, List.length_append, List.length_singleton] at hlength
      omega
    · exact hlonger
  · rw [if_neg hexact]
    have hmem : sc.relation.value = "exact".toList → exactAttribute ∈ attributes :=
      fun hvalue ↦ not_not.mp fun hnot ↦ hexact ⟨hvalue, hnot⟩
    split_ifs with hword
    · exact ⟨fun heq ↦ ⟨hmem, fun _ ↦ heq⟩, fun hsuits ↦ hsuits.2 hword⟩
    · exact iff_of_true rfl ⟨hmem, fun htrue ↦ absurd htrue hword⟩

variable {spatialTerm : PyStr → Except PyError PyStr} {config : SrwConfig} {prefixes : Prefixes}

def TablesGrown (old new : IndexTables) : Prop := ∀ ref, Grown (old ref) (new ref)

theorem TablesGrown.refl (tables : IndexTables) : TablesGrown tables tables :=
  fun ref ↦ Grown.refl (tables ref)

theorem TablesGrown.trans {first second third : IndexTables} (h : TablesGrown first second)
    (h' : TablesGrown second third) : TablesGrown first third :=
  fun ref ↦ (h ref).trans (h' ref)

theorem TablesGrown.antisymm {old new : IndexTables} (h : TablesGrown old new)
    (h' : TablesGrown new old) : new = old :=
  funext fun ref ↦ (h ref).antisymm (h' ref)

theorem clause_tables (tables : IndexTables) :
    (clauseToCheshire spatialTerm config prefixes sc tables).2 =
      match findIndex config prefixes sc.index with
      | .ok (some (.attributes ref)) => Function.update tables ref (adjust sc (tables ref))
      | _ => tables := by
  unfold clauseToCheshire convertIndex
  rcases findIndex config prefixes sc.index with error | _ | idx | ref <;> rfl

theorem clause_grown (tables : IndexTables) :
    TablesGrown tables (clauseToCheshire spatialTerm config prefixes sc tables).2 := by
  rw [clause_tables]
  rcases findIndex config prefixes sc.index with error | _ | idx | ref
  · exact TablesGrown.refl tables
  · exact TablesGrown.refl tables
  · exact TablesGrown.refl tables
  · intro other
    dsimp only
    by_cases hsame : other = ref
    · subst hsame
      rw [Function.update_self]
      exact grown_adjust sc _
    · rw [Function.update_of_ne hsame]
      exact Grown.refl _

/-- The term of a clause can be written for its relation. -/
def TermConverts (spatialTerm : PyStr → Except PyError PyStr) (config : SrwConfig)
    (sc : SearchClause) : Prop :=
  let relation := if sc.relation.value = serverChoiceRelation then config.defaultRelation
    else sc.relation.value
  if relation ∈ ["all".toList, "any".toList] then
    ∀ t ∈ split sc.term, (convertMetachars t).isOk = true
  else if relation ∈ ["cql.within".toList, "cql.encloses".toList] then
    (spatialTerm sc.term).isOk = true
  else relation ∈ ["=".toList, "exact".toList, ">".toList, "<".toList, ">=".toList, "<=".toList,
    "<>".toList]

/-- The clause has an index that is known, and a term that can be written. -/
def ClauseConverts (spatialTerm : PyStr → Except PyError PyStr) (config : SrwConfig)
    (prefixes : Prefixes) (sc : SearchClause) : Prop :=
  match findIndex config prefixes sc.index with
  | .error _ => False
  | .ok none => True
  | .ok (some (.attributes _)) => TermConverts spatialTerm config sc
  | .ok (some (.name idx)) =>
    wordIndex config sc idx = ":".toList ∨
      wordIndex config sc idx ≠ [] ∧ TermConverts spatialTerm config sc

/-- No node of the query raises an error. -/
def Converts (spatialTerm : PyStr → Except PyError PyStr) (config : SrwConfig)
    (prefixes : Prefixes) : CqlQuery → Prop
  | .searchClause sc => ClauseConverts spatialTerm config prefixes sc
  | .triple _ leftOperand boolean rightOperand =>
    Converts spatialTerm config prefixes leftOperand ∧
      (boolean.modifiers = [] ∨ 4 ≤ boolean.modifiers.length) ∧
      Converts spatialTerm config prefixes rightOperand

theorem isOk_mapM {α β : Type} (f : α → Except PyError β) (l : List α) :
    (l.mapM f).isOk = true ↔ ∀ a ∈ l, (f a).isOk = true := by
  induction l with
  | nil => simp [Except.isOk, Except.toBool, pure, Except.pure]
  | cons a l ih =>
    rw [List.mapM_cons, List.forall_mem_cons, ← ih]
    cases f a <;> cases l.mapM f <;>
      simp [bind, Except.bind, Except.isOk, Except.toBool, pure, Except.pure]

@[simp]
theorem isOk_ok {α : Type} (a : α) : (Except.ok a : Except PyError α).isOk = true := rfl

@[simp]
theorem isOk_error {α : Type} (error : PyError) : (Except.error error : Except PyError α).isOk = false :=
  rfl

theorem isOk_searchText (idx : PyStr) :
    (searchText spatialTerm config sc idx).isOk = true ↔ TermConverts spatialTerm config sc := by
  unfold searchText TermConverts
  dsimp only
  generalize (if sc.relation.value = serverChoiceRelation then config.defaultRelation
    else sc.relation.value) = relation
  by_cases hall : relation = "all".toList
  · rw [if_pos hall, if_pos (by simp [hall]), ← isOk_mapM]
    cases (split sc.term).mapM convertMetachars <;> rfl
  rw [if_neg hall]
  by_cases hany : relation = "any".toList
  · rw [if_pos hany, if_pos (by simp [hany]), ← isOk_mapM]
    cases (split sc.term).mapM convertMetachars with
    | error error => rfl
    | ok words =>
      dsimp only [bind, Except.bind]
      split_ifs <;> simp only [isOk_ok]
  have hwords : relation ∉ ["all".toList, "any".toList] := by
    simp only [List.mem_cons, List.not_mem_nil, or_false]
    exact not_or.mpr ⟨hall, hany⟩
  rw [if_neg hany, if_neg hwords]
  by_cases hwithin : relation = "cql.within".toList
  · subst hwithin
    cases hterm : spatialTerm sc.term <;> simp [bind, Except.bind]
  by_cases hencloses : relation = "cql.encloses".toList
  · subst hencloses
    cases hterm : spatialTerm sc.term <;> simp [bind, Except.bind]
  have hspatial : relation ∉ ["cql.within".toList, "cql.encloses".toList] := by
    simp only [List.mem_cons, List.not_mem_nil, or_false]
    exact not_or.mpr ⟨hwithin, hencloses⟩
  rw [if_neg hwithin, if_neg hencloses, if_neg hspatial]
  have hmem {first : PyStr} {others : List PyStr} :
      relation ∈ first :: others ↔ relation = first ∨ relation ∈ others := List.mem_cons
  split_ifs with hequal hdigits hrelevant hexact horder
  all_goals first
    | exact iff_of_true (isOk_ok _) (hmem.mpr (.inl hequal))
    | exact iff_of_true (isOk_ok _) (hmem.mpr (.inr (hmem.mpr (.inl hexact))))
    | exact iff_of_true (isOk_ok _) (hmem.mpr (.inr (hmem.mpr (.inr horder))))
    | exact iff_of_false (by simp) fun h ↦ (hmem.mp h).elim hequal fun h ↦
        (hmem.mp h).elim hexact horder

theorem printAttributes_cases :
    ∃ text, printAttributes attributes = '[' :: text ∨ printAttributes attributes = [']'] := by
  cases attributes with
  | nil => exact ⟨[], .inr (by decide)⟩
  | cons attr attributes =>
    refine ⟨(printAttributes (attr :: attributes)).tail, .inl ?_⟩
    have hlong : 2 < ("[".toList ++ (attr :: attributes).flatMap fun attr ↦
        attr.set.text ++ " ".toList ++ attr.type.text ++ "=".toList ++ attr.value.text ++
          ", ".toList).length := by
      simp
      omega
    unfold printAttributes dropEnd
    generalize hbody : (attr :: attributes).flatMap (fun attr ↦
        attr.set.text ++ " ".toList ++ attr.type.text ++ "=".toList ++ attr.value.text ++
          ", ".toList) = body at hlong ⊢
    obtain ⟨k, hk⟩ : ∃ k, ("[".toList ++ body).length - 2 = k + 1 :=
      ⟨("[".toList ++ body).length - 3, by omega⟩
    rw [hk]
    rfl

theorem isOk_clauseText (idx : PyStr) : (clauseText spatialTerm config sc idx).isOk = true ↔
      idx = ":".toList ∨ idx ≠ [] ∧ TermConverts spatialTerm config sc := by
  unfold clauseText
  by_cases hset : idx = ":".toList
  · rw [if_pos hset]
    exact iff_of_true (isOk_ok _) (.inl hset)
  · rw [if_neg hset]
    split
    · simp
    · simp [isOk_searchText]
    · dsimp only
      split_ifs <;> simp_all [isOk_searchText]

theorem isOk_clauseToCheshire (tables : IndexTables) :
    (clauseToCheshire spatialTerm config prefixes sc tables).1.isOk = true ↔
      ClauseConverts spatialTerm config prefixes sc := by
  unfold clauseToCheshire convertIndex ClauseConverts
  rcases findIndex config prefixes sc.index with error | _ | idx | ref
  · simp [Except.bind]
  · simp [Except.bind, isOk_clauseText]
  · exact isOk_clauseText sc _
  · change (clauseText spatialTerm config sc (printAttributes (adjust sc (tables ref)))).isOk = true ↔ _
    rw [isOk_clauseText]
    obtain ⟨text, hopen | hclose⟩ := printAttributes_cases (adjust sc (tables ref))
    · simp [hopen]
    · simp [hclose]

theorem isOk_booleanToCheshire (boolean : Boolean) : boolean.toCheshire.isOk = true ↔
    boolean.modifiers = [] ∨ 4 ≤ boolean.modifiers.length := by
  rcases boolean with ⟨value, _ | ⟨relation, _ | ⟨distance, _ | ⟨unit, _ | ⟨ordering, rest⟩⟩⟩⟩⟩
  all_goals simp [Boolean.toCheshire]

section Triple

variable (nodePrefixes : Prefixes) (leftOperand : CqlQuery) (boolean : Boolean)
  (rightOperand : CqlQuery) (tables : IndexTables)

theorem isOk_triple :
    (nodeToCheshire spatialTerm config prefixes
      (.triple nodePrefixes leftOperand boolean rightOperand) tables).1.isOk = true ↔
    (nodeToCheshire spatialTerm config prefixes leftOperand tables).1.isOk = true ∧
      boolean.toCheshire.isOk = true ∧
      (nodeToCheshire spatialTerm config prefixes rightOperand
        (nodeToCheshire spatialTerm config prefixes leftOperand tables).2).1.isOk = true := by
  rw [nodeToCheshire]
  cases hleft : nodeToCheshire spatialTerm config prefixes leftOperand tables with | mk left second =>
  cases left with
  | error error => simp
  | ok left =>
    cases boolean.toCheshire with
    | error error => simp
    | ok text =>
      dsimp only
      cases nodeToCheshire spatialTerm config prefixes rightOperand second with | mk right third =>
      cases right <;> simp

theorem triple_tables :
    (nodeToCheshire spatialTerm config prefixes
      (.triple nodePrefixes leftOperand boolean rightOperand) tables).2 =
    if (nodeToCheshire spatialTerm config prefixes leftOperand tables).1.isOk = true ∧
        boolean.toCheshire.isOk = true then
      (nodeToCheshire spatialTerm config prefixes rightOperand
        (nodeToCheshire spatialTerm config prefixes leftOperand tables).2).2
    else (nodeToCheshire spatialTerm config prefixes leftOperand tables).2 := by
  rw [nodeToCheshire]
  cases hleft : nodeToCheshire spatialTerm config prefixes leftOperand tables with | mk left second =>
  cases left with
  | error error => simp
  | ok left =>
    cases boolean.toCheshire with
    | error error => simp
    | ok text =>
      dsimp only
      rw [if_pos ⟨isOk_ok _, isOk_ok _⟩]
      cases nodeToCheshire spatialTerm config prefixes rightOperand second with | mk right third =>
      cases right <;> rfl

end Triple

theorem isOk_nodeToCheshire (query : CqlQuery) (tables : IndexTables) :
    (nodeToCheshire spatialTerm config prefixes query tables).1.isOk = true ↔
      Converts spatialTerm config prefixes query := by
  induction query generalizing tables with
  | searchClause sc => exact isOk_clauseToCheshire sc tables
  | triple nodePrefixes leftOperand boolean rightOperand hleft hright =>
    rw [Converts, isOk_triple, hleft, hright, isOk_booleanToCheshire]

theorem node_grown (query : CqlQuery) (tables : IndexTables) :
    TablesGrown tables (nodeToCheshire spatialTerm config prefixes query tables).2 := by
  induction query generalizing tables with
  | searchClause sc => exact clause_grown sc tables
  | triple nodePrefixes leftOperand boolean rightOperand hleft hright =>
    rw [triple_tables]
    split_ifs
    · exact (hleft tables).trans (hright _)
    · exact hleft tables

/-- Every clause that is reached and finds an attribute list finds it as it wants it. -/
def Stable (spatialTerm : PyStr → Except PyError PyStr) (config : SrwConfig) (prefixes : Prefixes)
    (tables : IndexTables) : CqlQuery → Prop
  | .searchClause sc => ∀ ref,
      findIndex config prefixes sc.index = .ok (some (.attributes ref)) → Suits sc (tables ref)
  | .triple _ leftOperand boolean rightOperand =>
    Stable spatialTerm config prefixes tables leftOperand ∧
      (Converts spatialTerm config prefixes leftOperand ∧
        (boolean.modifiers = [] ∨ 4 ≤ boolean.modifiers.length) →
          Stable spatialTerm config prefixes tables rightOperand)

theorem clause_unchanged_iff (tables : IndexTables) :
    (clauseToCheshire spatialTerm config prefixes sc tables).2 = tables ↔
      ∀ ref, findIndex config prefixes sc.index = .ok (some (.attributes ref)) →
        Suits sc (tables ref) := by
  rw [clause_tables]
  rcases findIndex config prefixes sc.index with error | _ | idx | ref
  · simp
  · simp
  · simp
  · simp [← adjust_eq_iff, eq_comm]

theorem node_unchanged_iff (query : CqlQuery) (tables : IndexTables) :
    (nodeToCheshire spatialTerm config prefixes query tables).2 = tables ↔
      Stable spatialTerm config prefixes tables query := by
  induction query generalizing tables with
  | searchClause sc => exact clause_unchanged_iff sc tables
  | triple nodePrefixes leftOperand boolean rightOperand hleft hright =>
    rw [Stable, ← hleft tables, ← isOk_nodeToCheshire leftOperand tables,
      ← isOk_booleanToCheshire, triple_tables]
    have hgrown : TablesGrown tables _ :=
      @node_grown spatialTerm config prefixes leftOperand tables
    generalize (nodeToCheshire spatialTerm config prefixes leftOperand tables).2 = second at hgrown ⊢
    split_ifs with hreached
    · have hmore : TablesGrown second _ :=
        @node_grown spatialTerm config prefixes rightOperand second
      constructor
      · intro hsame
        -- a list that the left operand changed cannot be changed back by the right one
        rw [hsame] at hmore
        have hsecond : second = tables := hgrown.antisymm hmore
        rw [hsecond] at hsame
        exact ⟨hsecond, fun _ ↦ (hright tables).mp hsame⟩
      · rintro ⟨hsecond, hstable⟩
        rw [hsecond]
        exact (hright tables).mpr (hstable hreached)
    · exact ⟨fun hsecond ↦ ⟨hsecond, fun h ↦ absurd h hreached⟩, And.left⟩

theorem toCheshire_unchanged_iff (query : CqlQuery) (tables : IndexTables) :
    (toCheshire spatialTerm config query tables).2 = tables ↔
      Stable spatialTerm config query.prefixes tables query :=
  node_unchanged_iff query tables

/-- The tables after the conversions of some queries. -/
def tablesAfter (spatialTerm : PyStr → Except PyError PyStr) (config : SrwConfig)
    (tables : IndexTables) (past : List CqlQuery) : IndexTables :=
  past.foldl (fun tables query ↦ (toCheshire spatialTerm config query tables).2) tables

/-- Every query of the sequence is converted as it is converted first, and leaves the tables as they
were. -/
def ConvertsIndependently (spatialTerm : PyStr → Except PyError PyStr) (config : SrwConfig)
    (tables : IndexTables) (queries : List CqlQuery) : Prop :=
  ∀ past query future, queries = past ++ query :: future →
    (toCheshire spatialTerm config query (tablesAfter spatialTerm config tables past)).1 =
        (toCheshire spatialTerm config query tables).1 ∧
      (toCheshire spatialTerm config query (tablesAfter spatialTerm config tables past)).2 = tables

theorem tablesAfter_eq (tables : IndexTables) (past : List CqlQuery)
    (hstable : ∀ query ∈ past, Stable spatialTerm config query.prefixes tables query) :
    tablesAfter spatialTerm config tables past = tables := by
  unfold tablesAfter
  induction past with
  | nil => rfl
  | cons query past hpast =>
    rw [List.foldl_cons, (toCheshire_unchanged_iff query tables).mpr (hstable query (by simp))]
    exact hpast fun other hother ↦ hstable other (List.mem_cons_of_mem _ hother)

/-- Queries are converted independently of each other exactly if every clause of them that is reached
finds its attribute list as its relation wants it. -/
theorem convertsIndependently_iff (spatialTerm : PyStr → Except PyError PyStr) (config : SrwConfig)
    (tables : IndexTables) (queries : List CqlQuery) :
    ConvertsIndependently spatialTerm config tables queries ↔
      ∀ query ∈ queries, Stable spatialTerm config query.prefixes tables query := by
  constructor
  · intro hindependent
    -- the first query that is not stable would leave changed tables behind
    have hfront : ∀ past future, queries = past ++ future →
        ∀ query ∈ past, Stable spatialTerm config query.prefixes tables query := by
      intro past
      induction past using List.reverseRecOn with
      | nil => simp
      | append_singleton past query hpast =>
        intro future hqueries
        have hqueries' : queries = past ++ query :: future := by
          rw [hqueries, List.append_assoc, List.singleton_append]
        have hstable := hpast _ hqueries'
        have hsame := (hindependent past query future hqueries').2
        rw [tablesAfter_eq tables past hstable, toCheshire_unchanged_iff] at hsame
        rw [List.forall_mem_append, List.forall_mem_singleton]
        exact ⟨hstable, hsame⟩
    exact hfront queries [] (List.append_nil _).symm
  · intro hstable past query future hqueries
    subst hqueries
    rw [tablesAfter_eq tables past fun other hother ↦ hstable other (by simp [hother])]
    exact ⟨rfl, (toCheshire_unchanged_iff query tables).mpr (hstable query (by simp))⟩

/-- A configuration whose index `dc.title` stands for an attribute list. -/
def titleConfig : SrwConfig where
  contextSetNamespaces := [("dc".toList, "info:srw/cql-context-set/1/dc-v1.1".toList)]
  defaultContextSet := "dc".toList
  defaultIndex := "title".toList
  defaultRelation := "=".toList
  useWordIndexes := false
  indexHash := fun set ↦ if set = "dc".toList then
    some fun idx ↦ if idx = "title".toList then some (.attributes 0) else none else none

def titleTables : IndexTables :=
  fun _ ↦ [⟨.str "bib1".toList, .str "1".toList, .str "4".toList⟩]

def titleQuery (relation : PyStr) : CqlQuery :=
  .searchClause ⟨∅, "dc.title".toList, ⟨relation, []⟩, "fish".toList⟩

/-- An exact search leaves its attribute to the next search of the same index. -/
theorem convertsIndependently_exact_first : ¬ ConvertsIndependently .ok titleConfig titleTables
    [titleQuery "exact".toList, titleQuery "<".toList] := by
  intro hindependent
  have hsecond := (hindependent [titleQuery "exact".toList] _ [] rfl).1
  have halone : (toCheshire .ok titleConfig (titleQuery "<".toList) titleTables).1 =
      .ok "[bib1 1=4] < \x7bfish\x7d".toList := by decide
  have hlater : (toCheshire .ok titleConfig (titleQuery "<".toList)
      (tablesAfter .ok titleConfig titleTables [titleQuery "exact".toList])).1 =
      .ok "[bib1 1=4, bib1 5=100] < \x7bfish\x7d".toList := by decide
  rw [halone, hlater] at hsecond
  revert hsecond
  decide

end Cheshire.Srw
