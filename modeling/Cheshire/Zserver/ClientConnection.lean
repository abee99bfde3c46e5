import Cheshire.Zpdu.PduRoundTrip

/-!
# A client's connection

The server reads a request, has it handled and sends the response before it reads the next one.  Over the
octets of the connection this is a dialogue of units: the responses that leave are those to the requests
that came, in their order.
-/

namespace Cheshire.Zserver

open Zpdu

/-- `in_pdu->which`, as the `switch` tells it. -/
inductive RequestKind where
  | initRequest
  | searchRequest
  | presentRequest
  | deleteResultSetRequest
  | resourceReportRequest
  | triggerResourceControlRequest
  | sortRequest
  | scanRequest
  | close
  | extendedServicesRequest
  | other
deriving DecidableEq

/-- What the loop calls: `DecodePDU`, `EncodePDU`, whose trees are built by the encoders of values, and the
handlers of the kinds of requests. -/
structure Service (Session Pdu : Type) where
  decodePDU : AsnTree → Option Pdu
  which : Pdu → RequestKind
  handle : RequestKind → Session → Pdu → Exec (Session × Option Pdu)
  encodePDU : Pdu → Option BerUnit

/-- What a request leads to: a response, the next request, or the end. -/
inductive Outcome (Pdu : Type) where
  | respond (outPdu : Pdu)
  | proceed
  | leave

section

variable {Session Pdu : Type} (service : Service Session Pdu)

/-- The `switch`, and the test of `out_pdu` behind it. -/
def switchPDU (session : Session) (inPdu : Pdu) : Exec (Session × Outcome Pdu) :=
  match service.which inPdu with
  | .triggerResourceControlRequest => .ok (session, .proceed)
  | .close => do
    -- the response is made, but not sent
    let handled ← service.handle .close session inPdu
    .ok (handled.1, .leave)
  | .extendedServicesRequest => .ok (session, .leave)
  -- `out_pdu` is not set, or it points to the response before, which was freed
  | .other => .error .uninitialized
  | which => do
    let handled ← service.handle which session inPdu
    .ok (handled.1, handled.2.elim .leave .respond)

/-- The octets that `PutPDU` writes, unless it returns an error. -/
def putPDU (pdu : Pdu) : Exec (Option (List UInt8)) :=
  encodePDU2 ((service.encodePDU pdu).elim .null fun unit ↦ unit.value.built)

/-- `HandleClientConnection`, with a bound on the passes of its loop: the session in the end, and what was
written. -/
def handleClientConnection : ℕ → Session → List UInt8 → Exec (Session × List UInt8)
  | 0, _, _ => .error .unfinished
  | fuel + 1, session, cfd => do
    let received ← getPDU cfd
    (if received.node = .null then none else service.decodePDU received.node).elim
      (.ok (session, [])) fun inPdu ↦ do
        let handled ← switchPDU service session inPdu
        match handled.2 with
        | .leave => .ok (handled.1, [])
        | .proceed => handleClientConnection fuel handled.1 received.stream
        | .respond outPdu => do
          let written ← putPDU service outPdu
          written.elim (.ok (handled.1, [])) fun octets ↦ do
            let rest ← handleClientConnection fuel handled.1 received.stream
            .ok (rest.1, octets ++ rest.2)

/-- The dialogue without the octets: the session in the end, and the responses. -/
def dialogue : Session → List BerUnit → Exec (Session × List BerUnit)
  | session, [] => .ok (session, [])
  | session, request :: requests =>
    (service.decodePDU request.value.received).elim (.ok (session, [])) fun inPdu ↦ do
      let handled ← switchPDU service session inPdu
      match handled.2 with
      | .leave => .ok (handled.1, [])
      | .proceed => dialogue handled.1 requests
      | .respond outPdu =>
        (service.encodePDU outPdu).elim (.ok (handled.1, [])) fun response ↦ do
          let rest ← dialogue handled.1 requests
          .ok (rest.1, response :: rest.2)

/-- Units on the wire. -/
def wire (units : List BerUnit) : List UInt8 := units.flatMap fun unit ↦ unit.value.octets

theorem length_le_wire (units : List BerUnit) : units.length ≤ (wire units).length := by
  induction units with
  | nil => exact le_rfl
  | cons unit units ih =>
    have hne : unit.value ≠ .nil := fun hnil ↦ by
      have hsingle := unit.single
      rwa [hnil] at hsingle
    have hpos := BerValues.octets_pos hne
    rw [wire, List.flatMap_cons, List.length_append, List.length_cons, ← wire]
    omega

theorem handleClientConnection_wire (requests : List BerUnit) {fuel : ℕ} (hfuel : requests.length < fuel)
    (session : Session) :
    handleClientConnection service fuel session (wire requests) =
      (dialogue service session requests).map fun final ↦ (final.1, wire final.2) := by
  induction requests generalizing fuel session with
  | nil =>
    obtain ⟨fuel, rfl⟩ := Nat.exists_eq_add_of_lt hfuel
    rfl
  | cons request requests ih =>
    obtain ⟨fuel, rfl⟩ : ∃ less, fuel = less + 1 := ⟨fuel - 1, by omega⟩
    have hne : request.value.received ≠ .null := (withNext_null _ _ request.single).2.2.1
    have hrest := @ih fuel (Nat.lt_of_succ_lt_succ hfuel)
    rw [wire, List.flatMap_cons, handleClientConnection, getPDU_octets, dialogue]
    simp only [bind, Except.bind, if_neg hne]
    cases service.decodePDU request.value.received with
    | none => rfl
    | some inPdu =>
      simp only [Option.elim_some]
      rcases switchPDU service session inPdu with fault | ⟨session', outcome⟩
      · rfl
      cases outcome with
      | leave => rfl
      | proceed => exact hrest session'
      | respond outPdu =>
        simp only [putPDU]
        cases service.encodePDU outPdu with
        | none => rfl
        | some response =>
          have hsent := encodePDU2_built response.single response.tagged response.short
          have hrun := hrest session'
          rw [wire] at hrun
          simp only [Option.elim_some, hsent, hrun]
          rcases dialogue service session' requests with fault | final
          · rfl
          · rfl

end

def rootTagno : AsnTree → Option ℕ
  | .null => none
  | .node _ _ tagno _ _ _ _ => some tagno.toNat

/-- A service that answers requests of the tag number 200 and takes the others for `close`. -/
def exampleService : Service ℕ ℕ where
  decodePDU := rootTagno
  which tagno := if tagno = 200 then .initRequest else .close
  handle _ session tagno := .ok (session + 1, some tagno)
  encodePDU _ := some nestedUnit

def closeUnit : BerUnit where
  value := .primitive .BER_CONTEXT 48 [] .nil
  single := rfl
  tagged := ⟨by decide, by decide, trivial⟩
  room := by decide

end Cheshire.Zserver
