import Cheshire.Srw.ToCheshire

/-!
# Queries that name a stored result set

A query all clauses of which ask for one stored result set is answered with this set.  The code looks
at the clauses of the whole tree, but what it finds in an operand under NOT or proximity is an empty
string, and adding it to a list of names leaves no trace there.
-/

namespace Cheshire.Srw

open PyStr

section Names

variable (lowerCase : LowerCase) (config : SrwConfig)

/-- The context set and the name of an index as `getResultSetName` splits it. -/
def SearchClause.indexParts (clause : SearchClause) : PyStr × PyStr :=
  match splitDot clause.index with
  | some (set, idx) => (lowerCase.lower set, lowerCase.lower idx)
  | none => ([], clause.index)

/-- `getResultSetName` of a clause; `prefixes` are those of the top of the query. -/
def SearchClause.getResultSetName (prefixes : Prefixes) (clause : SearchClause) :
    Except PyError PyStr := do
  let set ← contextSet config prefixes (clause.indexParts lowerCase).1
  if set = "srw".toList ∧ lowerCase.lower (clause.indexParts lowerCase).2 = "resultsetname".toList ∧
      clause.relation.value = "=".toList then .ok clause.term
  else .ok []

/-- What a call below the top returns: a string, or a list of names. -/
inductive FoundNames where
  | str (name : PyStr)
  | list (names : List PyStr)

/-- What `extend` adds: the names of a list, the characters of a string. -/
def FoundNames.items : FoundNames → List PyStr
  | str name => name.map fun c ↦ [c]
  | list names => names

/-- The booleans that veto the shortcut. -/
def Boolean.vetoes (boolean : Boolean) : Bool := boolean.value ∈ ["not".toList, "prox".toList]

/-- The call for an operand: its names, as they are added to the list of the triple. -/
def CqlQuery.operandNames (fullResultSetNameCheck : ℕ) (prefixes : Prefixes) :
    CqlQuery → Except PyError (List PyStr)
  | searchClause clause => do
    let name ← clause.getResultSetName lowerCase config prefixes
    return [name]
  | triple _ leftOperand boolean rightOperand => do
    if fullResultSetNameCheck = 0 ∨ boolean.vetoes = true then return (FoundNames.str []).items
    else
      let left ← leftOperand.operandNames fullResultSetNameCheck prefixes
      let right ← rightOperand.operandNames fullResultSetNameCheck prefixes
      return (FoundNames.list (left ++ right)).items

/-- The end of the call for the top: the first name where all names are this one. -/
def commonName (rsList : List PyStr) : Except PyError PyStr :=
  match rsList with
  | [] => .error .indexError
  | first :: _ => if rsList.length = rsList.count first then .ok first else .ok []

/-- `getResultSetName` of the whole query. -/
def CqlQuery.getResultSetName (fullResultSetNameCheck : ℕ) : CqlQuery → Except PyError PyStr
  | searchClause clause => clause.getResultSetName lowerCase config clause.prefixes
  | triple prefixes leftOperand boolean rightOperand => do
    if fullResultSetNameCheck = 0 ∨ boolean.vetoes = true then return []
    else
      let left ← leftOperand.operandNames lowerCase config fullResultSetNameCheck prefixes
      let right ← rightOperand.operandNames lowerCase config fullResultSetNameCheck prefixes
      commonName (left ++ right)

/-- The clause asks for the stored result set `name`. -/
def SearchClause.AsksFor (prefixes : Prefixes) (clause : SearchClause) (name : PyStr) : Prop :=
  contextSet config prefixes (clause.indexParts lowerCase).1 = .ok "srw".toList ∧
    lowerCase.lower (clause.indexParts lowerCase).2 = "resultsetname".toList ∧
    clause.relation.value = "=".toList ∧ clause.term = name

def CqlQuery.clauses : CqlQuery → List SearchClause
  | searchClause clause => [clause]
  | triple _ leftOperand _ rightOperand => leftOperand.clauses ++ rightOperand.clauses

def CqlQuery.booleans : CqlQuery → List Boolean
  | searchClause _ => []
  | triple _ leftOperand boolean rightOperand =>
    boolean :: (leftOperand.booleans ++ rightOperand.booleans)

/-- The clauses that do not stand below NOT or proximity. -/
def CqlQuery.openClauses : CqlQuery → List SearchClause
  | searchClause clause => [clause]
  | triple _ leftOperand boolean rightOperand =>
    if boolean.vetoes = true then [] else leftOperand.openClauses ++ rightOperand.openClauses

/-- Clauses are joined by AND and OR only. -/
def CqlQuery.Plain (query : CqlQuery) : Prop :=
  ∀ boolean ∈ query.booleans, boolean.value = "and".toList ∨ boolean.value = "or".toList

/-- A name is found only where the answer is the result set of this name. -/
def CqlQuery.Sound (fullResultSetNameCheck : ℕ) (query : CqlQuery) : Prop :=
  ∀ name, name ≠ [] → query.getResultSetName lowerCase config fullResultSetNameCheck = .ok name →
    (∀ clause ∈ query.clauses, clause.AsksFor lowerCase config query.prefixes name) ∧ query.Plain

variable {lowerCase : LowerCase} {config : SrwConfig}

variable {prefixes : Prefixes} {name : PyStr}

theorem SearchClause.getResultSetName_eq_ok_iff {clause : SearchClause} (hname : name ≠ []) :
    clause.getResultSetName lowerCase config prefixes = .ok name ↔
      clause.AsksFor lowerCase config prefixes name := by
  rw [getResultSetName, bind_eq_ok_iff, AsksFor]
  constructor
  · rintro ⟨set, hset, hresult⟩
    split_ifs at hresult with hcondition
    · obtain ⟨rfl, hidx, hrelation⟩ := hcondition
      exact ⟨hset, hidx, hrelation, Except.ok.inj hresult⟩
    · exact absurd (Except.ok.inj hresult).symm hname
  · rintro ⟨hset, hidx, hrelation, hterm⟩
    exact ⟨_, hset, by rw [if_pos ⟨rfl, hidx, hrelation⟩, hterm]⟩

theorem CqlQuery.operandNames_eq_mapM {fullResultSetNameCheck : ℕ} (hcheck : fullResultSetNameCheck ≠ 0)
    (prefixes : Prefixes) (query : CqlQuery) :
    query.operandNames lowerCase config fullResultSetNameCheck prefixes =
      query.openClauses.mapM (SearchClause.getResultSetName lowerCase config prefixes) := by
  induction query with
  | searchClause clause => simp [operandNames, openClauses]
  | triple _ leftOperand boolean rightOperand ihleft ihright =>
    rw [operandNames, openClauses, ihleft, ihright]
    by_cases hveto : boolean.vetoes = true
    · rw [if_pos (Or.inr hveto), if_pos hveto]
      rfl
    · rw [if_neg (not_or.mpr ⟨hcheck, hveto⟩), if_neg hveto, List.mapM_append]
      rfl

theorem CqlQuery.openClauses_of_plain {query : CqlQuery} (h : query.Plain) :
    query.openClauses = query.clauses := by
  induction query with
  | searchClause clause => rfl
  | triple _ leftOperand boolean rightOperand ihleft ihright =>
    have hboolean := h boolean List.mem_cons_self
    have hveto : ¬boolean.vetoes = true := by
      rw [Boolean.vetoes]
      rcases hboolean with hand | hor
      · rw [hand]
        decide
      · rw [hor]
        decide
    rw [openClauses, clauses, if_neg hveto,
      ihleft fun other hmem ↦ h other (List.mem_cons_of_mem _ (List.mem_append_left _ hmem)),
      ihright fun other hmem ↦ h other (List.mem_cons_of_mem _ (List.mem_append_right _ hmem))]

theorem commonName_eq_ok_iff {rsList : List PyStr} (hname : name ≠ []) :
    commonName rsList = .ok name ↔ rsList ≠ [] ∧ ∀ other ∈ rsList, other = name := by
  cases rsList with
  | nil =>
    refine iff_of_false (fun h ↦ ?_) fun h ↦ h.1 rfl
    cases h
  | cons first others =>
    have hcount : (first :: others).length = (first :: others).count first ↔
        ∀ other ∈ first :: others, first = other := by
      rw [eq_comm, List.count_eq_length]
    rw [commonName, and_iff_right (List.cons_ne_nil _ _)]
    split_ifs with hall
    · rw [hcount] at hall
      constructor
      · intro h
        rw [← Except.ok.inj h]
        exact fun other hmem ↦ (hall other hmem).symm
      · exact fun hnames ↦ congrArg Except.ok (hnames first List.mem_cons_self)
    · rw [hcount] at hall
      refine iff_of_false (fun h ↦ hname (Except.ok.inj h).symm) fun hnames ↦ hall fun other hmem ↦ ?_
      rw [hnames first List.mem_cons_self, hnames other hmem]

theorem mapM_getResultSetName {clauses : List SearchClause} (hname : name ≠ []) :
    (∃ names, clauses.mapM (SearchClause.getResultSetName lowerCase config prefixes) = .ok names ∧
        names.length = clauses.length ∧ ∀ other ∈ names, other = name) ↔
      ∀ clause ∈ clauses, clause.AsksFor lowerCase config prefixes name := by
  induction clauses with
  | nil => simp [pure, Except.pure]
  | cons clause clauses ih =>
    rw [List.forall_mem_cons, ← ih, ← SearchClause.getResultSetName_eq_ok_iff hname]
    simp only [List.mapM_cons, bind_eq_ok_iff]
    constructor
    · rintro ⟨_, ⟨first, hfirst, names, hnames, hresult⟩, hlength, hall⟩
      obtain rfl := Except.ok.inj hresult
      obtain ⟨rfl, hothers⟩ := List.forall_mem_cons.mp hall
      exact ⟨hfirst, names, hnames, Nat.succ.inj hlength, hothers⟩
    · rintro ⟨hfirst, names, hnames, hlength, hall⟩
      exact ⟨_, ⟨name, hfirst, names, hnames, rfl⟩, congrArg Nat.succ hlength,
        List.forall_mem_cons.mpr ⟨rfl, hall⟩⟩

theorem length_of_mapM {α β : Type} {f : α → Except PyError β} {items : List α} {results : List β}
    (h : items.mapM f = .ok results) : results.length = items.length := by
  induction items generalizing results with
  | nil =>
    rw [← Except.ok.inj h]
    rfl
  | cons item items ih =>
    rw [List.mapM_cons, bind_eq_ok_iff] at h
    obtain ⟨first, -, h⟩ := h
    obtain ⟨others, hothers, h⟩ := bind_eq_ok_iff.mp h
    rw [← Except.ok.inj h]
    exact congrArg Nat.succ (ih hothers)

theorem mapM_commonName {clauses : List SearchClause} (hname : name ≠ []) :
    (clauses.mapM (SearchClause.getResultSetName lowerCase config prefixes) >>= commonName) = .ok name ↔
      clauses ≠ [] ∧ ∀ clause ∈ clauses, clause.AsksFor lowerCase config prefixes name := by
  rw [bind_eq_ok_iff, ← mapM_getResultSetName hname, ← exists_and_left]
  refine exists_congr fun names ↦ ?_
  rw [commonName_eq_ok_iff hname, ← List.length_pos_iff, ← List.length_pos_iff]
  constructor
  · rintro ⟨hnames, hpos, hall⟩
    have hlength := length_of_mapM hnames
    exact ⟨hlength ▸ hpos, hnames, hlength, hall⟩
  · rintro ⟨hpos, hnames, hlength, hall⟩
    exact ⟨hnames, hlength ▸ hpos, hall⟩

theorem CqlQuery.getResultSetName_eq_ok_iff {fullResultSetNameCheck : ℕ}
    (hcheck : fullResultSetNameCheck ≠ 0) (query : CqlQuery) (hname : name ≠ []) :
    query.getResultSetName lowerCase config fullResultSetNameCheck = .ok name ↔
      query.openClauses ≠ [] ∧
        ∀ clause ∈ query.openClauses, clause.AsksFor lowerCase config query.prefixes name := by
  cases query with
  | searchClause clause =>
    change clause.getResultSetName lowerCase config clause.prefixes = .ok name ↔ _
    rw [SearchClause.getResultSetName_eq_ok_iff hname]
    simp [openClauses, CqlQuery.prefixes]
  | triple prefixes leftOperand boolean rightOperand =>
    rw [getResultSetName, openClauses]
    by_cases hveto : boolean.vetoes = true
    · rw [if_pos (Or.inr hveto), if_pos hveto]
      exact iff_of_false (fun h ↦ hname (Except.ok.inj h).symm) fun h ↦ h.1 rfl
    · rw [if_neg (not_or.mpr ⟨hcheck, hveto⟩), if_neg hveto, operandNames_eq_mapM hcheck,
        operandNames_eq_mapM hcheck]
      have hrun : (leftOperand.openClauses.mapM (SearchClause.getResultSetName lowerCase config prefixes) >>=
          fun left ↦ rightOperand.openClauses.mapM (SearchClause.getResultSetName lowerCase config prefixes) >>=
            fun right ↦ commonName (left ++ right)) =
          (leftOperand.openClauses ++ rightOperand.openClauses).mapM
            (SearchClause.getResultSetName lowerCase config prefixes) >>= commonName := by
        rw [List.mapM_append, bind_assoc]
        simp only [bind_assoc, pure_bind]
      rw [hrun]
      exact mapM_commonName hname

/-- The shortcut is sound unless the clauses that no boolean vetoes ask for one result set and there is
another boolean than AND and OR in the tree. -/
theorem CqlQuery.sound_iff (lowerCase : LowerCase) (config : SrwConfig) (fullResultSetNameCheck : ℕ)
    (query : CqlQuery) :
    query.Sound lowerCase config fullResultSetNameCheck ↔
      (fullResultSetNameCheck ≠ 0 → query.openClauses ≠ [] →
        (∃ name ≠ [], ∀ clause ∈ query.openClauses,
          clause.AsksFor lowerCase config query.prefixes name) → query.Plain) := by
  constructor
  · rintro hsound hcheck hne ⟨name, hname, hall⟩
    exact (hsound name hname ((query.getResultSetName_eq_ok_iff hcheck hname).mpr ⟨hne, hall⟩)).2
  · intro hplain name hname hresult
    by_cases hcheck : fullResultSetNameCheck = 0
    · cases query with
      | searchClause clause =>
        have hasks := (SearchClause.getResultSetName_eq_ok_iff hname).mp hresult
        refine ⟨fun other hmem ↦ ?_, fun boolean hmem ↦ absurd hmem List.not_mem_nil⟩
        rwa [List.mem_singleton.mp hmem]
      | triple prefixes leftOperand boolean rightOperand =>
        rw [getResultSetName, if_pos (Or.inl hcheck)] at hresult
        exact absurd (Except.ok.inj hresult).symm hname
    · obtain ⟨hne, hall⟩ := (query.getResultSetName_eq_ok_iff hcheck hname).mp hresult
      have hplain := hplain hcheck hne ⟨name, hname, hall⟩
      rw [openClauses_of_plain hplain] at hall
      exact ⟨hall, hplain⟩

end Names

/-- A server with the context set of result sets. -/
def setsConfig : SrwConfig where
  contextSetNamespaces := [("srw".toList, "http://www.loc.gov/zing/cql/srw-indexes/v1.0/".toList)]
  defaultContextSet := "srw".toList
  defaultIndex := "serverchoice".toList
  defaultRelation := "=".toList
  useWordIndexes := false
  indexHash _ := none

def wordClause (word : PyStr) : CqlQuery :=
  .searchClause ⟨∅, "srw.serverchoice".toList, ⟨serverChoiceRelation, []⟩, word⟩

/-- `srw.resultSetName = a and (x not y)` -/
def setAndNot : CqlQuery :=
  .triple ∅ (.searchClause ⟨∅, "srw.resultsetname".toList, ⟨"=".toList, []⟩, "a".toList⟩)
    ⟨"and".toList, []⟩ (.triple ∅ (wordClause "x".toList) ⟨"not".toList, []⟩ (wordClause "y".toList))

/-- The NOT leaves no trace: the answer would be the whole set. -/
theorem not_sound_setAndNot : setAndNot.getResultSetName .ascii setsConfig 1 = .ok "a".toList ∧
    ¬setAndNot.Sound .ascii setsConfig 1 := by
  have hrun : setAndNot.getResultSetName .ascii setsConfig 1 = .ok "a".toList := by decide +kernel
  refine ⟨hrun, fun hsound ↦ ?_⟩
  have hnot : (⟨"not".toList, []⟩ : Boolean) ∈ setAndNot.booleans := by decide
  rcases (hsound "a".toList (by decide) hrun).2 _ hnot with hand | hor
  · exact absurd hand (by decide)
  · exact absurd hor (by decide)

end Cheshire.Srw
