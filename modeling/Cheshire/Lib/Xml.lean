import Mathlib

/-!
# XML without attributes

Trees of elements and texts, how they are written, and what a parser of XML makes of them: ends of
lines are normalised, text between two tags is one node, and a character that XML does not know is an
error.  `ParsesXml` says this of any parser; `parse` is one, a machine that reads one character after
the other and keeps the elements that are open.
-/

namespace Cheshire.Lib.Xml

inductive Node where
  | text (data : List Char)
  | element (localName : String) (childNodes : List Node)

/-- A character as it is written in a text. -/
def escapeChar (c : Char) : List Char :=
  if c = '&' then "&amp;".toList else if c = '<' then "&lt;".toList
  else if c = '>' then "&gt;".toList else [c]

def escape (data : List Char) : List Char := data.flatMap escapeChar

mutual

def Node.render : Node → List Char
  | .text data => escape data
  | .element localName childNodes =>
    '<' :: localName.toList ++ '>' :: renderAll childNodes ++
      '<' :: '/' :: localName.toList ++ ['>']

def renderAll : List Node → List Char
  | [] => []
  | node :: nodes => node.render ++ renderAll nodes

end

/-- The characters of XML. -/
def IsXmlChar (c : Char) : Prop :=
  c = '\t' ∨ c = '\n' ∨ c = '\r' ∨ (0x20 ≤ c.toNat ∧ c.toNat ≠ 0xFFFE ∧ c.toNat ≠ 0xFFFF)

instance : DecidablePred IsXmlChar := fun c ↦
  inferInstanceAs (Decidable (c = '\t' ∨ c = '\n' ∨ c = '\r' ∨
    (0x20 ≤ c.toNat ∧ c.toNat ≠ 0xFFFE ∧ c.toNat ≠ 0xFFFF)))

/-- White space around the root of a document. -/
def IsBlank (c : Char) : Prop := c = ' ' ∨ c = '\t' ∨ c = '\n' ∨ c = '\r'

instance : DecidablePred IsBlank := fun c ↦
  inferInstanceAs (Decidable (c = ' ' ∨ c = '\t' ∨ c = '\n' ∨ c = '\r'))

/-- The ends of lines `\r\n` and `\r` are read as `\n`. -/
def lineEnds : List Char → List Char
  | [] => []
  | c :: rest =>
    if c = '\r' then
      if rest.head? = some '\n' then lineEnds rest else '\n' :: lineEnds rest
    else c :: lineEnds rest

mutual

def Node.lineEnds : Node → Node
  | .text data => .text (Xml.lineEnds data)
  | .element localName childNodes => .element localName (lineEndsAll childNodes)

def lineEndsAll : List Node → List Node
  | [] => []
  | node :: nodes => node.lineEnds :: lineEndsAll nodes

end

/-- The names used here: letters. -/
def IsName (localName : String) : Prop :=
  localName.toList ≠ [] ∧ ∀ c ∈ localName.toList, c.isAlpha = true

def IsText : Node → Prop
  | .text _ => True
  | .element _ _ => False

mutual

/-- A node as a parser gives it: texts are not empty, and no two of them stand side by side. -/
def Node.Normal : Node → Prop
  | .text data => data ≠ []
  | .element localName childNodes => IsName localName ∧ NormalAll childNodes

def NormalAll : List Node → Prop
  | [] => True
  | node :: nodes => node.Normal ∧ (IsText node → ∀ next ∈ nodes.head?, ¬ IsText next) ∧
      NormalAll nodes

end

mutual

/-- All texts of the node consist of characters of XML. -/
def Node.Legal : Node → Prop
  | .text data => ∀ c ∈ data, IsXmlChar c
  | .element _ childNodes => LegalAll childNodes

def LegalAll : List Node → Prop
  | [] => True
  | node :: nodes => node.Legal ∧ LegalAll nodes

end

/-- The parser reads elements that are written as XML, with nothing but white space behind them, and
knows no other characters than those of XML. -/
structure ParsesXml (parseString : List Char → Option Node) : Prop where
  reads : ∀ localName childNodes blanks, (Node.element localName childNodes).Normal →
    (∀ c ∈ (Node.element localName childNodes).render, IsXmlChar c) → (∀ c ∈ blanks, IsBlank c) →
      parseString ((Node.element localName childNodes).render ++ blanks) =
        some (Node.element localName childNodes).lineEnds
  refuses : ∀ text, (∃ c ∈ text, ¬ IsXmlChar c) → parseString text = none

/-- An element that is open: its name, the nodes read, and the text behind them. -/
structure Frame where
  localName : String
  nodes : List Node
  data : List Char

def Frame.childNodes (frame : Frame) : List Node :=
  if frame.data = [] then frame.nodes else frame.nodes ++ [.text frame.data]

/-- What the next character belongs to. -/
inductive Mode where
  | content
  | tag
  | startTag (localName : List Char)
  | endTag (localName : List Char)
  | entity (name : List Char)

structure Reader where
  mode : Mode
  stack : List Frame
  root : Option Node

/-- The entities that every parser knows. -/
def entityChar (name : List Char) : Option Char :=
  if name = "amp".toList then some '&' else if name = "lt".toList then some '<'
  else if name = "gt".toList then some '>' else if name = "quot".toList then some '"'
  else if name = "apos".toList then some '\'' else none

def addChar (c : Char) (stack : List Frame) (root : Option Node) : Option Reader :=
  match stack with
  | [] => if IsBlank c then some ⟨.content, [], root⟩ else none
  | frame :: frames => some ⟨.content, { frame with data := frame.data ++ [c] } :: frames, root⟩

def closeElement (localName : List Char) (stack : List Frame) (root : Option Node) :
    Option Reader :=
  match stack with
  | [] => none
  | frame :: frames =>
    if frame.localName.toList = localName then
      let node := Node.element frame.localName frame.childNodes
      match frames, root with
      | [], none => some ⟨.content, [], some node⟩
      | [], some _ => none
      | outer :: frames, root =>
        some ⟨.content, ⟨outer.localName, outer.childNodes ++ [node], []⟩ :: frames, root⟩
    else none

def step (reader : Reader) (c : Char) : Option Reader :=
  match reader.mode with
  | .content =>
    if c = '<' then some { reader with mode := .tag }
    else if c = '&' then some { reader with mode := .entity [] }
    else addChar c reader.stack reader.root
  | .tag =>
    if c = '/' then some { reader with mode := .endTag [] }
    else some { reader with mode := .startTag [c] }
  | .startTag localName =>
    if c = '>' then some ⟨.content, ⟨String.ofList localName, [], []⟩ :: reader.stack, reader.root⟩
    else some { reader with mode := .startTag (localName ++ [c]) }
  | .endTag localName =>
    if c = '>' then closeElement localName reader.stack reader.root
    else some { reader with mode := .endTag (localName ++ [c]) }
  | .entity name =>
    if c = ';' then
      (entityChar name).bind fun decoded ↦ addChar decoded reader.stack reader.root
    else some { reader with mode := .entity (name ++ [c]) }

/-- The root of a document that is read to its end. -/
def Reader.document (reader : Reader) : Option Node :=
  match reader with
  | ⟨.content, [], root⟩ => root
  | _ => none

def parse (text : List Char) : Option Node :=
  if ∀ c ∈ text, IsXmlChar c then
    ((lineEnds text).foldlM step ⟨.content, [], none⟩).bind Reader.document
  else none

variable {c : Char}

theorem isXmlChar_of_lt (hc : 32 ≤ c.toNat ∧ c.toNat < 128) : IsXmlChar c :=
  .inr (.inr (.inr ⟨hc.1, by omega, by omega⟩))

theorem isXmlChar_of_isAlpha (hc : c.isAlpha = true) : IsXmlChar c := by
  rw [Char.isAlpha, Bool.or_eq_true] at hc
  rcases hc with hc | hc
  · have hupper : 65 ≤ c.val ∧ c.val ≤ 90 := by simpa [Char.isUpper] using hc
    have hnat : 65 ≤ c.toNat ∧ c.toNat ≤ 90 := hupper
    exact isXmlChar_of_lt (by omega)
  · have hlower : 97 ≤ c.val ∧ c.val ≤ 122 := by simpa [Char.isLower] using hc
    have hnat : 97 ≤ c.toNat ∧ c.toNat ≤ 122 := hlower
    exact isXmlChar_of_lt (by omega)

theorem isXmlChar_escapeChar_iff (c : Char) : (∀ d ∈ escapeChar c, IsXmlChar d) ↔ IsXmlChar c := by
  have hletters {letters : List Char} (hall : letters.all (fun d ↦ 32 ≤ d.toNat && d.toNat < 128)) :
      ∀ d ∈ letters, IsXmlChar d := by
    intro d hd
    have hrange := List.all_eq_true.mp hall d hd
    rw [Bool.and_eq_true, decide_eq_true_eq, decide_eq_true_eq] at hrange
    exact isXmlChar_of_lt hrange
  unfold escapeChar
  split_ifs with hamp hlt hgt
  · exact iff_of_true (hletters rfl) (hamp ▸ isXmlChar_of_lt (by decide))
  · exact iff_of_true (hletters rfl) (hlt ▸ isXmlChar_of_lt (by decide))
  · exact iff_of_true (hletters rfl) (hgt ▸ isXmlChar_of_lt (by decide))
  · exact List.forall_mem_singleton

theorem isXmlChar_escape_iff (data : List Char) :
    (∀ c ∈ escape data, IsXmlChar c) ↔ ∀ c ∈ data, IsXmlChar c := by
  simp only [escape, List.forall_mem_flatMap, isXmlChar_escapeChar_iff]

mutual

theorem isXmlChar_render_iff {node : Node} (hnormal : node.Normal) :
    (∀ c ∈ node.render, IsXmlChar c) ↔ node.Legal := by
  match node with
  | .text data => exact isXmlChar_escape_iff data
  | .element localName childNodes =>
    have hname : ∀ c ∈ localName.toList, IsXmlChar c := fun c hc ↦
      isXmlChar_of_isAlpha (hnormal.1.2 c hc)
    have hbrackets : IsXmlChar '<' ∧ IsXmlChar '>' ∧ IsXmlChar '/' :=
      ⟨isXmlChar_of_lt (by decide), isXmlChar_of_lt (by decide), isXmlChar_of_lt (by decide)⟩
    rw [Node.Legal, ← isXmlChar_renderAll_iff hnormal.2, Node.render]
    simp only [List.forall_mem_append, List.forall_mem_cons]
    constructor
    · rintro ⟨⟨⟨_, _, hchildren⟩, _⟩, _⟩
      exact hchildren
    · intro hchildren
      exact ⟨⟨⟨⟨hbrackets.1, hname⟩, hbrackets.2.1, hchildren⟩, hbrackets.1, hbrackets.2.2, hname⟩,
        hbrackets.2.1, List.forall_mem_nil _⟩

theorem isXmlChar_renderAll_iff {nodes : List Node} (hnormal : NormalAll nodes) :
    (∀ c ∈ renderAll nodes, IsXmlChar c) ↔ LegalAll nodes := by
  match nodes with
  | [] => simp [renderAll, LegalAll]
  | node :: nodes =>
    rw [renderAll, List.forall_mem_append, LegalAll, isXmlChar_render_iff hnormal.1,
      isXmlChar_renderAll_iff hnormal.2.2]

end

theorem lineEnds_append_of_notMem {front : List Char} (hcr : '\r' ∉ front) (rest : List Char) :
    lineEnds (front ++ rest) = front ++ lineEnds rest := by
  induction front with
  | nil => rfl
  | cons c front hfront =>
    rw [List.mem_cons, not_or] at hcr
    rw [List.cons_append, lineEnds, if_neg (Ne.symm hcr.1), hfront hcr.2, List.cons_append]

theorem lineEnds_append (front : List Char) {rest : List Char} (hrest : rest.head? ≠ some '\n') :
    lineEnds (front ++ rest) = lineEnds front ++ lineEnds rest := by
  induction front with
  | nil => rfl
  | cons c front hfront =>
    have hhead : (front ++ rest).head? = some '\n' ↔ front.head? = some '\n' := by
      cases front <;> simp [hrest]
    rw [List.cons_append, lineEnds, lineEnds, hfront]
    simp only [hhead]
    split_ifs <;> rfl

theorem cr_notMem_lineEnds (data : List Char) : '\r' ∉ lineEnds data := by
  induction data with
  | nil => exact List.not_mem_nil
  | cons c rest hrest =>
    unfold lineEnds
    split_ifs with hc hhead
    · exact hrest
    · simpa using hrest
    · simpa [eq_comm, hc] using hrest

theorem lineEnds_eq_self_iff (data : List Char) : lineEnds data = data ↔ '\r' ∉ data := by
  constructor
  · intro hsame
    rw [← hsame]
    exact cr_notMem_lineEnds data
  · intro hcr
    simpa [lineEnds] using lineEnds_append_of_notMem hcr []

theorem lineEnds_eq_nil_iff (data : List Char) : lineEnds data = [] ↔ data = [] := by
  refine ⟨fun hnil ↦ ?_, fun hnil ↦ by rw [hnil]; rfl⟩
  induction data with
  | nil => rfl
  | cons c rest hrest =>
    unfold lineEnds at hnil
    split_ifs at hnil with hc hhead
    rw [hrest hnil] at hhead
    cases hhead

theorem notMem_escapeChar (hc : c ≠ '\r') : '\r' ∉ escapeChar c := by
  unfold escapeChar
  split_ifs
  · decide
  · decide
  · decide
  · simpa [eq_comm] using hc

theorem head?_escape (data : List Char) :
    (escape data).head? = some '\n' ↔ data.head? = some '\n' := by
  cases data with
  | nil => rfl
  | cons c rest =>
    rw [escape, List.flatMap_cons, List.head?_cons]
    unfold escapeChar
    split_ifs with hamp hlt hgt
    · simp [hamp]
    · simp [hlt]
    · simp [hgt]
    · rfl

theorem lineEnds_escape (data : List Char) : lineEnds (escape data) = escape (lineEnds data) := by
  induction data with
  | nil => rfl
  | cons c rest hrest =>
    have hcons : escape (c :: rest) = escapeChar c ++ escape rest := List.flatMap_cons
    by_cases hc : c = '\r'
    · subst hc
      have hcr : escapeChar '\r' = ['\r'] := by decide
      rw [hcons, hcr, List.singleton_append, lineEnds, lineEnds, if_pos rfl, if_pos rfl, hrest]
      simp only [head?_escape]
      split_ifs <;> rfl
    · rw [hcons, lineEnds_append_of_notMem (notMem_escapeChar hc), hrest, lineEnds, if_neg hc]
      rfl

variable {localName : String}

theorem notMem_name (hname : IsName localName) (hc : c.isAlpha = false) : c ∉ localName.toList := by
  intro hmem
  rw [hname.2 c hmem] at hc
  cases hc

theorem head?_renderAll {nodes : List Node} {next : Node} (hnext : nodes.head? = some next)
    (helement : ¬ IsText next) : (renderAll nodes).head? = some '<' := by
  cases nodes with
  | nil => cases hnext
  | cons node nodes =>
    have hsame : node = next := Option.some.inj hnext
    subst hsame
    cases node with
    | text data => exact absurd trivial helement
    | element localName childNodes => rfl

mutual

theorem lineEnds_render {node : Node} (hnormal : node.Normal) {rest : List Char}
    (hrest : IsText node → rest.head? ≠ some '\n') :
    lineEnds (node.render ++ rest) = node.lineEnds.render ++ lineEnds rest := by
  match node with
  | .text data =>
    rw [Node.render, lineEnds_append _ (hrest trivial), lineEnds_escape]
    rfl
  | .element localName childNodes =>
    have hcr : '\r' ∉ localName.toList := notMem_name hnormal.1 rfl
    have hopen : '\r' ∉ '<' :: localName.toList ++ ['>'] := by simpa using hcr
    have hclose : '\r' ∉ '<' :: '/' :: localName.toList ++ ['>'] := by simpa using hcr
    have hchildren := @lineEnds_renderAll childNodes hnormal.2
      ('<' :: '/' :: localName.toList ++ ['>'] ++ rest) (by simp)
    calc lineEnds ((Node.element localName childNodes).render ++ rest)
        = lineEnds (('<' :: localName.toList ++ ['>']) ++ (renderAll childNodes ++
            ('<' :: '/' :: localName.toList ++ ['>'] ++ rest))) := by
          simp [Node.render]
      _ = ('<' :: localName.toList ++ ['>']) ++ (renderAll (lineEndsAll childNodes) ++
            (('<' :: '/' :: localName.toList ++ ['>']) ++ lineEnds rest)) := by
          rw [lineEnds_append_of_notMem hopen, hchildren, lineEnds_append_of_notMem hclose]
      _ = (Node.element localName childNodes).lineEnds.render ++ lineEnds rest := by
          simp [Node.lineEnds, Node.render]

theorem lineEnds_renderAll {nodes : List Node} (hnormal : NormalAll nodes) {rest : List Char}
    (hrest : rest.head? ≠ some '\n') :
    lineEnds (renderAll nodes ++ rest) = renderAll (lineEndsAll nodes) ++ lineEnds rest := by
  match nodes with
  | [] => rfl
  | node :: nodes =>
    have hnext : IsText node → (renderAll nodes ++ rest).head? ≠ some '\n' := by
      intro htext
      cases hhead : nodes.head? with
      | none =>
        rw [List.head?_eq_none_iff] at hhead
        rw [hhead]
        exact hrest
      | some next =>
        rw [List.head?_append, head?_renderAll hhead (hnormal.2.1 htext next hhead)]
        simp
    rw [renderAll, List.append_assoc, lineEnds_render hnormal.1 hnext,
      lineEnds_renderAll hnormal.2.2 hrest, lineEndsAll, renderAll, List.append_assoc]

end

def Frame.push (frame : Frame) : Node → Frame
  | .text data => { frame with data := frame.data ++ data }
  | .element localName childNodes =>
    ⟨frame.localName, frame.childNodes ++ [.element localName childNodes], []⟩

theorem localName_pushAll (nodes : List Node) (frame : Frame) :
    (nodes.foldl Frame.push frame).localName = frame.localName := by
  induction nodes generalizing frame with
  | nil => rfl
  | cons node nodes hnodes =>
    rw [List.foldl_cons, hnodes]
    cases node <;> rfl

theorem childNodes_pushAll {nodes : List Node} (hnormal : NormalAll nodes) (frame : Frame)
    (hdata : ∀ next ∈ nodes.head?, IsText next → frame.data = []) :
    (nodes.foldl Frame.push frame).childNodes = frame.childNodes ++ nodes := by
  induction nodes generalizing frame with
  | nil => simp
  | cons node nodes hnodes =>
    rw [List.foldl_cons, hnodes hnormal.2.2]
    · cases node with
      | text data =>
        have hempty := hdata _ rfl trivial
        have hne : data ≠ [] := hnormal.1
        simp [Frame.push, Frame.childNodes, hempty, hne]
      | element localName childNodes => simp [Frame.push, Frame.childNodes]
    · intro next hnext htext
      cases node with
      | text data => exact absurd htext (hnormal.2.1 trivial next hnext)
      | element localName childNodes => rfl

theorem closeElement_pushAll {childNodes : List Node} (hnormal : NormalAll childNodes)
    (stack : List Frame) (root : Option Node) :
    closeElement localName.toList (childNodes.foldl Frame.push ⟨localName, [], []⟩ :: stack) root =
      match stack, root with
      | [], none => some ⟨.content, [], some (.element localName childNodes)⟩
      | [], some _ => none
      | frame :: frames, root =>
        some ⟨.content, frame.push (.element localName childNodes) :: frames, root⟩ := by
  have hname := localName_pushAll childNodes ⟨localName, [], []⟩
  have hnodes := childNodes_pushAll hnormal ⟨localName, [], []⟩ fun _ _ _ ↦ rfl
  rw [closeElement, if_pos (congrArg String.toList hname), hname, hnodes]
  rfl

theorem run_escape (data : List Char) (frame : Frame) (frames : List Frame) (root : Option Node) :
    (escape data).foldlM step ⟨.content, frame :: frames, root⟩ =
      some ⟨.content, { frame with data := frame.data ++ data } :: frames, root⟩ := by
  induction data generalizing frame with
  | nil => simp [escape]
  | cons c data hdata =>
    have hchar : (escapeChar c).foldlM step ⟨.content, frame :: frames, root⟩ =
        some ⟨.content, { frame with data := frame.data ++ [c] } :: frames, root⟩ := by
      unfold escapeChar
      split_ifs with hamp hlt hgt
      · subst hamp; rfl
      · subst hlt; rfl
      · subst hgt; rfl
      · simp [step, hamp, hlt, addChar]
    have hcons : escape (c :: data) = escapeChar c ++ escape data := List.flatMap_cons
    rw [hcons, List.foldlM_append, hchar]
    change (escape data).foldlM step _ = _
    rw [hdata]
    simp

theorem run_name {mode : List Char → Mode} {stack : List Frame} {root : Option Node}
    (hmode : ∀ front c, c ≠ '>' →
      step ⟨mode front, stack, root⟩ c = some ⟨mode (front ++ [c]), stack, root⟩)
    {name : List Char} (hgt : '>' ∉ name) (front : List Char) :
    name.foldlM step ⟨mode front, stack, root⟩ = some ⟨mode (front ++ name), stack, root⟩ := by
  induction name generalizing front with
  | nil => simp
  | cons c name hname =>
    rw [List.mem_cons, not_or] at hgt
    rw [List.foldlM_cons, hmode front c (Ne.symm hgt.1)]
    change name.foldlM step _ = _
    rw [hname hgt.2, List.append_assoc, List.singleton_append]

theorem run_startTag (hname : IsName localName) (stack : List Frame) (root : Option Node) :
    ('<' :: localName.toList ++ ['>']).foldlM step ⟨.content, stack, root⟩ =
      some ⟨.content, ⟨localName, [], []⟩ :: stack, root⟩ := by
  cases hchars : localName.toList with
  | nil => exact absurd hchars hname.1
  | cons c name =>
    have hslash : '/' ∉ c :: name := hchars ▸ notMem_name hname rfl
    have hgt : '>' ∉ c :: name := hchars ▸ notMem_name hname rfl
    rw [List.mem_cons, not_or] at hslash hgt
    have hfirst : step ⟨.tag, stack, root⟩ c = some ⟨.startTag [c], stack, root⟩ :=
      if_neg (Ne.symm hslash.1)
    have hrun := @run_name .startTag stack root (fun front c hc ↦ if_neg hc) _ hgt.2 [c]
    change (step ⟨.tag, stack, root⟩ c >>= fun reader ↦ (name ++ ['>']).foldlM step reader) = _
    rw [hfirst]
    change (name ++ ['>']).foldlM step _ = _
    rw [List.foldlM_append, hrun, List.singleton_append, ← hchars]
    change some (Reader.mk .content (⟨String.ofList localName.toList, [], []⟩ :: stack) root) = _
    rw [String.ofList_toList]

theorem run_endTag (hname : IsName localName) (stack : List Frame) (root : Option Node) :
    ('<' :: '/' :: localName.toList ++ ['>']).foldlM step ⟨.content, stack, root⟩ =
      closeElement localName.toList stack root := by
  have hgt : '>' ∉ localName.toList := notMem_name hname rfl
  have hrun := @run_name .endTag stack root (fun front c hc ↦ if_neg hc) _ hgt []
  change (localName.toList ++ ['>']).foldlM step ⟨.endTag [], stack, root⟩ = _
  rw [List.foldlM_append, hrun]
  change (step ⟨.endTag localName.toList, stack, root⟩ '>' >>= pure) = _
  rw [bind_pure]
  rfl

mutual

theorem run_node {node : Node} (hnormal : node.Normal) (frame : Frame) (frames : List Frame)
    (root : Option Node) :
    node.render.foldlM step ⟨.content, frame :: frames, root⟩ =
      some ⟨.content, frame.push node :: frames, root⟩ := by
  match node with
  | .text data => exact run_escape data frame frames root
  | .element localName childNodes =>
    have hchildren := run_element hnormal (frame :: frames) root
    rw [hchildren, closeElement_pushAll hnormal.2]

theorem run_element {localName : String} {childNodes : List Node}
    (hnormal : (Node.element localName childNodes).Normal) (stack : List Frame)
    (root : Option Node) :
    (Node.element localName childNodes).render.foldlM step ⟨.content, stack, root⟩ =
      closeElement localName.toList (childNodes.foldl Frame.push ⟨localName, [], []⟩ :: stack) root := by
  have hrender : (Node.element localName childNodes).render =
      ('<' :: localName.toList ++ ['>']) ++ renderAll childNodes ++
        ('<' :: '/' :: localName.toList ++ ['>']) := by
    simp [Node.render]
  have hchildren := run_nodes hnormal.2 ⟨localName, [], []⟩ stack root
  rw [hrender, List.foldlM_append, List.foldlM_append, run_startTag hnormal.1]
  change (renderAll childNodes).foldlM step _ >>= _ = _
  rw [hchildren]
  exact run_endTag hnormal.1 _ root

theorem run_nodes {nodes : List Node} (hnormal : NormalAll nodes) (frame : Frame)
    (frames : List Frame) (root : Option Node) :
    (renderAll nodes).foldlM step ⟨.content, frame :: frames, root⟩ =
      some ⟨.content, nodes.foldl Frame.push frame :: frames, root⟩ := by
  match nodes with
  | [] => rfl
  | node :: nodes =>
    have hnode := run_node hnormal.1 frame frames root
    rw [renderAll, List.foldlM_append, hnode]
    exact run_nodes hnormal.2.2 (frame.push node) frames root

end

theorem run_blanks {blanks : List Char} (hblanks : ∀ c ∈ blanks, IsBlank c) (root : Option Node) :
    blanks.foldlM step ⟨.content, [], root⟩ = some ⟨.content, [], root⟩ := by
  induction blanks with
  | nil => rfl
  | cons c blanks hrest =>
    rw [List.forall_mem_cons] at hblanks
    have hstep : step ⟨.content, [], root⟩ c = some ⟨.content, [], root⟩ := by
      rcases hblanks.1 with hc | hc | hc | hc <;> subst hc <;> rfl
    rw [List.foldlM_cons, hstep]
    exact hrest hblanks.2

theorem isBlank_lineEnds {blanks : List Char} (hblanks : ∀ c ∈ blanks, IsBlank c) :
    ∀ c ∈ lineEnds blanks, IsBlank c := by
  induction blanks with
  | nil => simp [lineEnds]
  | cons c blanks hrest =>
    rw [List.forall_mem_cons] at hblanks
    unfold lineEnds
    split_ifs
    · exact hrest hblanks.2
    · exact List.forall_mem_cons.mpr ⟨by simp [IsBlank], hrest hblanks.2⟩
    · exact List.forall_mem_cons.mpr ⟨hblanks.1, hrest hblanks.2⟩

mutual

theorem normal_lineEnds {node : Node} (hnormal : node.Normal) : node.lineEnds.Normal := by
  match node with
  | .text data => exact fun hnil ↦ hnormal ((lineEnds_eq_nil_iff data).mp hnil)
  | .element localName childNodes => exact ⟨hnormal.1, normalAll_lineEnds hnormal.2⟩

theorem normalAll_lineEnds {nodes : List Node} (hnormal : NormalAll nodes) :
    NormalAll (lineEndsAll nodes) := by
  match nodes with
  | [] => trivial
  | node :: nodes =>
    have hkind : ∀ node : Node, IsText node.lineEnds ↔ IsText node := fun node ↦ by
      cases node <;> rfl
    have hhead : ∀ next ∈ (lineEndsAll nodes).head?, ∃ before ∈ nodes.head?, next = before.lineEnds := by
      cases nodes with
      | nil => simp [lineEndsAll]
      | cons next nodes => simp [lineEndsAll]
    refine ⟨normal_lineEnds hnormal.1, ?_, normalAll_lineEnds hnormal.2.2⟩
    intro htext next hnext
    obtain ⟨before, hbefore, rfl⟩ := hhead next hnext
    rw [hkind] at htext ⊢
    exact hnormal.2.1 htext before hbefore

end

theorem parsesXml_parse : ParsesXml parse where
  reads := by
    intro localName childNodes blanks hnormal hchars hblanks
    have hall : ∀ c ∈ (Node.element localName childNodes).render ++ blanks, IsXmlChar c := by
      intro c hc
      rcases List.mem_append.mp hc with hc | hc
      · exact hchars c hc
      · rcases hblanks c hc with rfl | rfl | rfl | rfl <;> decide
    have hnormal' := normal_lineEnds hnormal
    have hroot := run_element hnormal' [] none
    rw [closeElement_pushAll hnormal'.2] at hroot
    rw [parse, if_pos hall, lineEnds_render hnormal fun h ↦ absurd h id, List.foldlM_append]
    change ((Node.element localName (lineEndsAll childNodes)).render.foldlM step _ >>= _).bind _ = _
    rw [hroot]
    change ((lineEnds blanks).foldlM step _).bind _ = _
    rw [run_blanks (isBlank_lineEnds hblanks)]
    rfl
  refuses := by
    intro text hbad
    obtain ⟨c, hc, hillegal⟩ := hbad
    exact if_neg fun hall ↦ hillegal (hall c hc)

end Cheshire.Lib.Xml
