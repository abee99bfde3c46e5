import Cheshire.Zserver.VirtualSearch

/-!
# Delete requests

`HandleDeleteResultSetRequest` goes over the names of the request, or over all that the session
lists, and reports a status for each.  A status is the diagnostic that the process has after the
deletion, and zero to begin with; the overall status is that of the last deletion, unless a name was
not deleted.
-/

namespace Cheshire.Zserver

open Lib Search ResultStore

/-- The session, and the diagnostic code of the process. -/
structure DiagSession where
  session : ZSession
  diagnostic : ℤ

/-- `switch (delete_result_code)` -/
def deleteStatus : ℤ → Option ℤ
  | 0 => some 0
  | 30 => some 1
  | 27 => some 2
  | 2 => some 3
  | 101 => some 4
  | 105 => some 5
  | 31 => some 6
  | 28 => some 10
  | _ => none

/-- The loop of `RemoveListOfResultSets`: the list of statuses, the code that is overwritten, and the
number of deletions. -/
structure Removal where
  state : DiagSession
  statuses : List (SetName × ℤ)
  failureResultCode : ℤ
  deleted : ℕ

/-- `DeleteResultSetResponse`, with the statuses of the list or of the bulk. -/
structure DeleteResponse where
  deleteOperationStatus : ℤ
  numberNotDeleted : ℕ
  statuses : List (SetName × ℤ)

section

variable (server : Server)

/-- One pass; the status of a name that the session does not list stays as it was allocated. -/
def removeStep (r : Removal) (resultSetId : SetName) : Exec Removal :=
  if acListSearch r.state.session.resultSetNames resultSetId = true then do
    let (status, store) ← seDeleteResultSet server.userid r.state.session.store resultSetId
    -- a failed deletion sets the diagnostic, a successful one leaves the one that was there
    let deleteResultCode := if status = .fail then 30 else r.state.diagnostic
    .ok {
      state := ⟨{ r.state.session with
        store := store
        resultSetNames := acListDelete r.state.session.resultSetNames resultSetId }, 0⟩
      statuses := r.statuses ++ [(resultSetId, (deleteStatus deleteResultCode).getD 0)]
      failureResultCode := (deleteStatus deleteResultCode).getD r.failureResultCode
      deleted := r.deleted + if deleteResultCode = 0 then 1 else 0 }
  else .ok { r with statuses := r.statuses ++ [(resultSetId, 0)] }

def removeListOfResultSets (s : DiagSession) :
    Option (List SetName) → Exec (DeleteResponse × DiagSession)
  | none => .ok (⟨1, 0, []⟩, s)
  | some resultSets => do
    let r ← resultSets.foldlM (removeStep server) ⟨s, [], 0, 0⟩
    let checked := r.statuses.length
    if checked > r.deleted then .ok (⟨8, checked - r.deleted, r.statuses⟩, r.state)
    else .ok (⟨r.failureResultCode, 0, r.statuses⟩, r.state)

/-- `ac_list_dup`; an empty list has no copy. -/
def acListDup (names : List SetName) : Option (List SetName) :=
  if names = [] then none else some names

/-- `HandleDeleteResultSetRequest`, with its response. -/
def handleDeleteResultSetRequest (s : DiagSession) :
    DeleteRequest → Exec (DeleteResponse × DiagSession)
  | .all => removeListOfResultSets server s (acListDup s.session.resultSetNames)
  | .list resultSets => do
    let (response, s) ← removeListOfResultSets server s (some resultSets)
    .ok ({ response with
      deleteOperationStatus :=
        if response.deleteOperationStatus = 8 then 9 else response.deleteOperationStatus }, s)

/-- The entry under which a set of this name is found. -/
def keyOf (name : SetName) : String := name.orDefault.tempSetid server.userid

/-- A set of this name is stored. -/
def Exists (s : DiagSession) (name : SetName) : Prop :=
  (storedSet server.userid s.session.store name).isSome = true

instance (s : DiagSession) (name : SetName) : Decidable (Exists server s name) :=
  inferInstanceAs (Decidable (_ = true))

/-- The statuses say of each name whether its set was there and is gone, and the overall status whether
all of them were. -/
structure Reported (s s' : DiagSession) (response : DeleteResponse) : Prop where
  each : ∀ entry ∈ response.statuses,
    entry.2 = 0 ↔ Exists server s entry.1 ∧ ¬Exists server s' entry.1
  overall : response.deleteOperationStatus = 0 ↔
    ∀ entry ∈ response.statuses, Exists server s entry.1 ∧ ¬Exists server s' entry.1

/-- What the request is to remove is removed, and reported. -/
def DeletesRight (s : DiagSession) (request : DeleteRequest) : Prop :=
  ∃ response s', handleDeleteResultSetRequest server s request = .ok (response, s') ∧
    Reported server s s' response ∧
    match request with
    | .all => ∀ setid, ¬Exists server s' setid
    | .list names => response.statuses.map Prod.fst = names ∧
        ∀ setid, storedSet server.userid s'.session.store setid =
          if ∃ name ∈ names, keyOf server name = keyOf server setid then none
          else storedSet server.userid s.session.store setid

/-- The names that a request goes over. -/
def DeleteRequest.names (s : DiagSession) : DeleteRequest → List SetName
  | .all => s.session.resultSetNames
  | .list names => names

/-- The names are different sets, the session lists them as they are written, and none is empty while the
default set is stored; no diagnostic was left behind if the first one is stored; the store has been
used if there is a name; and a request for all sets finds names, and those of all sets that are stored. -/
structure DeleteSound (s : DiagSession) (request : DeleteRequest) : Prop where
  distinct : ((request.names s).map (keyOf server)).Nodup
  listed : ∀ name ∈ request.names s, acListSearch s.session.resultSetNames name = true
  named : ∀ name ∈ request.names s, name.text = "" → ¬Exists server s name
  clear : ∀ name ∈ (request.names s).head?, Exists server s name → s.diagnostic = 0
  used : request.names s ≠ [] → s.session.store.hashTab.isSome = true
  all : request = .all → request.names s ≠ [] ∧
    ∀ setid, Exists server s setid → ∃ name ∈ request.names s, keyOf server name = keyOf server setid

end

section Steps

variable {server : Server}

theorem InCore.deleteStatus {store : ResultStore} (h : InCore server.userid store)
    (hused : store.hashTab.isSome = true) {setid : SetName}
    (hnamed : setid.text = "" → storedSet server.userid store setid = none) :
    ∃ store', seDeleteResultSet server.userid store setid =
        .ok (if (storedSet server.userid store setid).isSome then .succeed else .fail, store') ∧
      InCore server.userid store' ∧ store'.hashTab.isSome = true ∧
      ∀ other, storedSet server.userid store' other =
        if keyOf server setid = keyOf server other then none
        else storedSet server.userid store other := by
  obtain ⟨status, store', hrun, hinv, hstored⟩ := h.delete setid
  have hstatus : status = (if (storedSet server.userid store setid).isSome then .succeed else .fail) ∧
      store'.hashTab.isSome = true := by
    have htab : ¬store.hashTab.isNone := by
      rw [Option.isNone_iff_eq_none]
      intro hnone
      rw [hnone] at hused
      cases hused
    rw [seDeleteResultSet, if_neg htab, seCheckResultSet_eq] at hrun
    by_cases hempty : setid.text = ""
    · rw [entryOf, seCheckResultSet, if_pos hempty] at hrun
      rw [hnamed hempty]
      cases hrun
      exact ⟨rfl, rfl⟩
    · rw [entryOf_of_ne hempty] at hrun
      rw [storedSet, SetName.orDefault_of_ne hempty]
      rcases h.entry_or (setid.tempSetid server.userid) with ⟨hentry, hnone⟩ | ⟨data, addr, set, hheld⟩
      · rw [hentry] at hrun
        rw [hnone]
        cases hrun
        exact ⟨rfl, rfl⟩
      · rw [hheld.entry, Option.map_some] at hrun
        obtain ⟨freed, -, hrun⟩ := bind_eq_ok.mp hrun
        rw [hheld.storedAt]
        cases hrun
        exact ⟨rfl, rfl⟩
  refine ⟨store', by rw [hrun, hstatus.1], hinv, hstatus.2, fun other ↦ ?_⟩
  rw [storedSet, hstored]
  by_cases hempty : setid.text = ""
  · rw [if_neg fun hand ↦ hand.1 hempty]
    by_cases hkey : keyOf server setid = keyOf server other
    · have hnone := hnamed hempty
      rw [storedSet] at hnone
      rw [if_pos hkey]
      exact (congrArg (storedAt store) hkey).symm.trans hnone
    · rw [if_neg hkey]
      rfl
  · have hkeyOf : keyOf server setid = setid.tempSetid server.userid := by
      rw [keyOf, SetName.orDefault_of_ne hempty]
    rw [hkeyOf]
    by_cases hkey : setid.tempSetid server.userid = other.orDefault.tempSetid server.userid
    · rw [if_pos ⟨hempty, hkey.symm⟩]
      exact (if_pos hkey).symm
    · rw [if_neg fun hand ↦ hkey hand.2.symm]
      exact (if_neg hkey).symm

/-- What was done for the names that were gone over. -/
structure Removed (server : Server) (s : DiagSession) (past : List SetName) (r : Removal) : Prop where
  inCore : InCore server.userid r.state.session.store
  used : s.session.store.hashTab.isSome = true → r.state.session.store.hashTab.isSome = true
  stored : ∀ setid, storedSet server.userid r.state.session.store setid =
    if ∃ name ∈ past, keyOf server name = keyOf server setid then none
    else storedSet server.userid s.session.store setid
  names : r.statuses.map Prod.fst = past
  statuses : ∀ entry ∈ r.statuses, entry.2 = 0 ↔ Exists server s entry.1
  deleted : r.deleted = past.countP fun name ↦ decide (Exists server s name)
  failure : (∀ name ∈ past, Exists server s name) → r.failureResultCode = 0
  listed : ∀ name, (∀ other ∈ past, other.text ≠ name.text) →
    acListSearch s.session.resultSetNames name = true →
    acListSearch r.state.session.resultSetNames name = true
  diagnostic : r.state.diagnostic = if past = [] then s.diagnostic else 0

variable {s : DiagSession}

theorem removed_nil (h : InCore server.userid s.session.store) :
    Removed server s [] ⟨s, [], 0, 0⟩ where
  inCore := h
  used := id
  stored := fun setid ↦ by simp
  names := rfl
  statuses := List.forall_mem_nil _
  deleted := rfl
  failure := fun _ ↦ rfl
  listed := fun _ _ hlisted ↦ hlisted
  diagnostic := rfl

variable {names : List SetName} {name : SetName}

theorem acListSearch_acListDelete {other : SetName} (hne : other.text ≠ name.text)
    (h : acListSearch names name = true) : acListSearch (acListDelete names other) name = true := by
  rw [acListSearch, List.any_eq_true] at h ⊢
  obtain ⟨found, hfound, htext⟩ := h
  refine ⟨found, ?_, htext⟩
  rw [acListDelete, List.mem_eraseP_of_neg]
  · exact hfound
  · intro hother
    have htext : found.text = name.text := by simpa using htext
    have hother : found.text = other.text := by simpa using hother
    exact hne (hother.symm.trans htext)

variable {past : List SetName} {r : Removal}

theorem Removed.step (h : Removed server s past r)
    (hused : s.session.store.hashTab.isSome = true)
    (hnew : ∀ other ∈ past, keyOf server other ≠ keyOf server name)
    (hlisted : acListSearch s.session.resultSetNames name = true)
    (hnamed : name.text = "" → ¬Exists server s name)
    (hclear : past = [] → Exists server s name → s.diagnostic = 0) :
    ∃ r', removeStep server r name = .ok r' ∧ Removed server s (past ++ [name]) r' := by
  have hsame : storedSet server.userid r.state.session.store name =
      storedSet server.userid s.session.store name := by
    rw [h.stored, if_neg]
    rintro ⟨other, hother, hkey⟩
    exact hnew other hother hkey
  have htext : ∀ other ∈ past, other.text ≠ name.text := by
    intro other hother heq
    apply hnew other hother
    rw [keyOf, keyOf, SetName.orDefault, SetName.orDefault, heq]
    split
    · rfl
    · rw [SetName.tempSetid, SetName.tempSetid, heq]
  have hempty : name.text = "" →
      storedSet server.userid r.state.session.store name = none := by
    intro htext
    rw [hsame]
    exact Option.not_isSome_iff_eq_none.mp (hnamed htext)
  obtain ⟨store', hrun, hinv, hkept, hstored⟩ := h.inCore.deleteStatus (h.used hused) hempty
  have hcode : (if (if (storedSet server.userid r.state.session.store name).isSome
        then Status.succeed else Status.fail) = .fail then 30 else r.state.diagnostic) =
      if Exists server s name then 0 else 30 := by
    rw [hsame]
    by_cases hexists : Exists server s name
    · have hdiagnostic : r.state.diagnostic = 0 := by
        rw [h.diagnostic]
        split
        · next hpast => exact hclear hpast hexists
        · rfl
      have hsome : (storedSet server.userid s.session.store name).isSome = true := hexists
      rw [if_pos hexists, if_pos hsome, hdiagnostic]
      rfl
    · have hnone : ¬(storedSet server.userid s.session.store name).isSome = true := hexists
      rw [if_neg hexists, if_neg hnone]
      rfl
  rw [removeStep, if_pos (h.listed name htext hlisted), hrun]
  simp only [bind, Except.bind, hcode]
  refine ⟨_, rfl, hinv, fun _ ↦ hkept, ?_, ?_, ?_, ?_, ?_, ?_, ?_⟩
  · intro setid
    simp only [hstored, h.stored, List.mem_append, List.mem_singleton, or_and_right, exists_or,
      exists_eq_left]
    by_cases hkey : keyOf server name = keyOf server setid
    · rw [if_pos hkey, if_pos (Or.inr hkey)]
    · rw [if_neg hkey]
      simp only [hkey, or_false]
  · rw [List.map_append, h.names]
    rfl
  · intro entry hentry
    rcases List.mem_append.mp hentry with hold | hlast
    · exact h.statuses entry hold
    · obtain rfl := List.mem_singleton.mp hlast
      by_cases hexists : Exists server s name
      · simp [hexists, deleteStatus]
      · simp [hexists, deleteStatus]
  · rw [List.countP_append, List.countP_singleton, h.deleted]
    by_cases hexists : Exists server s name
    · simp [hexists]
    · simp [hexists]
  · intro hall
    have hexists : Exists server s name :=
      hall name (List.mem_append_right _ (List.mem_singleton_self _))
    simp [hexists, deleteStatus]
  · intro other hother hlisted
    have hpast := List.forall_mem_append.mp hother
    apply acListSearch_acListDelete (hpast.2 name (List.mem_singleton_self _))
    exact h.listed other hpast.1 hlisted
  · rw [if_neg (List.append_ne_nil_of_right_ne_nil _ (List.cons_ne_nil _ _))]

theorem Removed.run (h : Removed server s past r)
    (hused : names ≠ [] → s.session.store.hashTab.isSome = true)
    (hdistinct : ((past ++ names).map (keyOf server)).Nodup)
    (hlisted : ∀ name ∈ names, acListSearch s.session.resultSetNames name = true)
    (hnamed : ∀ name ∈ names, name.text = "" → ¬Exists server s name)
    (hclear : past = [] → ∀ name ∈ names.head?, Exists server s name → s.diagnostic = 0) :
    ∃ r', names.foldlM (removeStep server) r = .ok r' ∧ Removed server s (past ++ names) r' := by
  induction names generalizing past r with
  | nil => exact ⟨r, rfl, by simpa using h⟩
  | cons name names ih =>
    obtain ⟨hname, hrest⟩ := List.forall_mem_cons.mp hlisted
    have hnew : ∀ other ∈ past, keyOf server other ≠ keyOf server name := by
      intro other hother heq
      rw [List.map_append, List.map_cons] at hdistinct
      have hapart := (List.nodup_append.mp hdistinct).2.2
      exact hapart _ (List.mem_map_of_mem hother) _ List.mem_cons_self heq
    have husedNow := hused (List.cons_ne_nil _ _)
    obtain ⟨next, hstep, hnext⟩ := h.step husedNow hnew hname (hnamed name List.mem_cons_self)
      fun hpast ↦ hclear hpast name rfl
    obtain ⟨r', hrun, hdone⟩ := ih hnext (fun _ ↦ husedNow) (by simpa using hdistinct) hrest
      (fun other hother ↦ hnamed other (List.mem_cons_of_mem _ hother))
      fun hnil ↦ absurd hnil (List.append_ne_nil_of_right_ne_nil _ (List.cons_ne_nil _ _))
    refine ⟨r', ?_, by simpa using hdone⟩
    rw [List.foldlM_cons, hstep]
    exact hrun

theorem InCore.removeAll (h : InCore server.userid s.session.store) {request : DeleteRequest}
    (hsound : DeleteSound server s request) :
    ∃ r, (request.names s).foldlM (removeStep server) ⟨s, [], 0, 0⟩ = .ok r ∧
      Removed server s (request.names s) r := by
  have hdistinct : (([] ++ request.names s).map (keyOf server)).Nodup := by
    simpa using hsound.distinct
  exact (removed_nil h).run hsound.used hdistinct hsound.listed hsound.named fun _ ↦ hsound.clear

theorem Removed.gone (h : Removed server s past r) {setid : SetName} (hname : name ∈ past)
    (hkey : keyOf server name = keyOf server setid) : ¬Exists server r.state setid := by
  rw [Exists, h.stored, if_pos ⟨name, hname, hkey⟩]
  exact Bool.false_ne_true

theorem Removed.reported (h : Removed server s names r) {overall : ℤ}
    (hoverall : overall = 0 ↔ ∀ name ∈ names, Exists server s name) (notDeleted : ℕ) :
    Reported server s r.state ⟨overall, notDeleted, r.statuses⟩ := by
  have hgone : ∀ entry ∈ r.statuses, ¬Exists server r.state entry.1 := by
    intro entry hentry
    apply h.gone _ rfl
    rw [← h.names]
    exact List.mem_map_of_mem hentry
  constructor
  · intro entry hentry
    rw [h.statuses entry hentry]
    exact (and_iff_left (hgone entry hentry)).symm
  · rw [hoverall, ← h.names, List.forall_mem_map]
    apply forall₂_congr
    intro entry hentry
    exact (and_iff_left (hgone entry hentry)).symm

/-- The response of the loop; an empty list of statuses cannot be told from a list without
failures. -/
theorem Removed.response (h : Removed server s names r)
    (hrun : names.foldlM (removeStep server) ⟨s, [], 0, 0⟩ = .ok r) :
    ∃ response, removeListOfResultSets server s (some names) = .ok (response, r.state) ∧
      response.statuses = r.statuses ∧
      (response.deleteOperationStatus = 0 ↔ ∀ name ∈ names, Exists server s name) := by
  have hlength : r.statuses.length = names.length := by
    rw [← h.names, List.length_map]
  have hcount : r.deleted = names.length ↔ ∀ name ∈ names, Exists server s name := by
    rw [h.deleted, List.countP_eq_length]
    simp only [decide_eq_true_eq]
  simp only [removeListOfResultSets, hrun, bind, Except.bind, hlength]
  by_cases hall : ∀ name ∈ names, Exists server s name
  · rw [if_neg (by rw [hcount.mpr hall]; exact lt_irrefl _)]
    exact ⟨_, rfl, rfl, iff_of_true (h.failure hall) hall⟩
  · have hless : r.deleted < names.length := by
      have hle : r.deleted ≤ names.length := h.deleted ▸ List.countP_le_length
      exact lt_of_le_of_ne hle (hcount.not.mpr hall)
    rw [if_pos hless]
    exact ⟨_, rfl, rfl, iff_of_false (show (8 : ℤ) ≠ 0 by decide) hall⟩

theorem deletesRight_of_sound (h : InCore server.userid s.session.store) {request : DeleteRequest}
    (hsound : DeleteSound server s request) : DeletesRight server s request ∧ ∀ response s',
      handleDeleteResultSetRequest server s request = .ok (response, s') →
        InCore server.userid s'.session.store := by
  obtain ⟨r, hloop, hremoved⟩ := h.removeAll hsound
  obtain ⟨response, hrun, hstatuses, hoverall⟩ := hremoved.response hloop
  cases request with
  | all =>
    obtain ⟨hnames, hcovered⟩ := hsound.all rfl
    have hdup : acListDup s.session.resultSetNames = some s.session.resultSetNames :=
      if_neg hnames
    have hhandled : handleDeleteResultSetRequest server s .all = .ok (response, r.state) := by
      rw [handleDeleteResultSetRequest, hdup]
      exact hrun
    constructor
    · refine ⟨response, r.state, hhandled, ?_, ?_⟩
      · have hreported := hremoved.reported hoverall response.numberNotDeleted
        rw [← hstatuses] at hreported
        exact hreported
      · intro setid
        by_cases hexists : Exists server s setid
        · obtain ⟨name, hname, hkey⟩ := hcovered setid hexists
          exact hremoved.gone hname hkey
        · rw [Exists, hremoved.stored]
          split
          · exact Bool.false_ne_true
          · exact hexists
    · intro other s' hother
      rw [hhandled] at hother
      cases hother
      exact hremoved.inCore
  | list names =>
    have hhandled : handleDeleteResultSetRequest server s (.list names) =
        .ok ({ response with
          deleteOperationStatus :=
            if response.deleteOperationStatus = 8 then 9 else response.deleteOperationStatus },
          r.state) := by
      have hloop : removeListOfResultSets server s (some names) = .ok (response, r.state) := hrun
      rw [handleDeleteResultSetRequest, hloop]
      rfl
    have hzero : (if response.deleteOperationStatus = 8 then 9
        else response.deleteOperationStatus) = 0 ↔ ∀ name ∈ names, Exists server s name := by
      have hoverall : response.deleteOperationStatus = 0 ↔ ∀ name ∈ names, Exists server s name :=
        hoverall
      rw [← hoverall]
      split
      · next height =>
        rw [height]
        decide
      · exact Iff.rfl
    constructor
    · refine ⟨_, r.state, hhandled, ?_, ?_, ?_⟩
      · have hreported := hremoved.reported hzero response.numberNotDeleted
        rw [← hstatuses] at hreported
        exact hreported
      · exact (congrArg _ hstatuses).trans hremoved.names
      · exact hremoved.stored
    · intro other s' hother
      rw [hhandled] at hother
      cases hother
      exact hremoved.inCore

end Steps

end Cheshire.Zserver
