import Cheshire.Fault

/-!
# From MARC-8 to Unicode

The filter `conv_marc_unicode` reads bytes from its input.  Escape sequences designate the character sets of
the lower half of the codes (G0) and of the upper half (G1), and every other byte is looked up in the table
of the set of its half.  The byte behind an escape sequence is converted by the code of the sequence itself.
What the tables hold is left out: a conversion is a table with the index that is looked up.
-/

namespace Cheshire.Marc8

abbrev Byte := Fin 256

inductive CharSet where
  | basicLatin
  | extendedLatin
  | greekSymbols
  | subscripts
  | superscripts
  | hebrew
  | cyrillic
  | extendedCyrillic
  | arabic
  | extendedArabic
  | greek
deriving DecidableEq, Repr

/-- `char_table_1` to `char_table_11`; both Latin sets are in the first one, and there is no second one. -/
inductive CharTable where
  | table1
  | table3
  | table4
  | table5
  | table6
  | table7
  | table8
  | table9
  | table10
  | table11
deriving DecidableEq, Repr

def CharTable.size : CharTable → ℕ
  | .table1 => 256
  | .table3 => 101
  | .table4 => 59
  | .table5 => 59
  | .table6 => 127
  | .table7 => 128
  | .table8 => 245
  | .table9 => 124
  | .table10 => 256
  | .table11 => 128

/-- The two `switch`es over the current set. -/
def CharSet.table : CharSet → CharTable
  | .basicLatin => .table1
  | .extendedLatin => .table1
  | .greekSymbols => .table3
  | .subscripts => .table4
  | .superscripts => .table5
  | .hebrew => .table6
  | .cyrillic => .table7
  | .extendedCyrillic => .table8
  | .arabic => .table9
  | .extendedArabic => .table10
  | .greek => .table11

/-- `set0` and `set1` -/
structure Sets where
  set0 : CharSet
  set1 : CharSet
deriving DecidableEq, Repr

def Sets.initial : Sets := ⟨.basicLatin, .extendedLatin⟩

/-- What is written: an entry of a table, or the message about the East Asian set. -/
inductive Output where
  | entry (table : CharTable) (index : ℕ)
  | cjkMessage
deriving DecidableEq, Repr

/-- What a pass leaves: the sets, what was written, and the bytes that are still to be read. -/
abbrev Passed := Sets × List Output × List Byte

/-- `getchar`, which returns `EOF` when nothing is left. -/
def getchar : List Byte → ℤ × List Byte
  | [] => (-1, [])
  | b :: stream => ((b : ℕ), stream)

/-- `outfunc(&table[i].UTF_8[0])` -/
def outfunc (table : CharTable) (i : ℤ) : Exec Output :=
  if 0 ≤ i ∧ i < table.size then .ok (.entry table i.toNat) else .error .outOfBounds

/-- The end of a case: the sets are changed, and the byte behind the sequence is converted. -/
def convertFirst (sets : Sets) (table : CharTable) (i : ℤ) (stream : List Byte) : Exec Passed := do
  let out ← outfunc table i
  .ok (sets, [out], stream)

/-- Basic and extended Latin; the final `!` may have an `E` behind it. -/
def latin (final : ℤ) (firstchar : ℤ × List Byte) : Exec Passed :=
  let firstchar := if final = 0x21 ∧ firstchar.1 = 0x45 then getchar firstchar.2 else firstchar
  convertFirst .initial .table1 firstchar.1 firstchar.2

/-- The finals behind `(` and `,`. -/
def finalG0 (sets : Sets) (final : ℤ) (firstchar : ℤ × List Byte) : Exec Passed :=
  match final with
  | 0x33 => convertFirst { sets with set0 := .arabic } .table9 firstchar.1 firstchar.2
  | 0x34 => convertFirst { sets with set0 := .extendedArabic } .table10 firstchar.1 firstchar.2
  | 0x42 => latin final firstchar
  | 0x21 => latin final firstchar
  | 0x31 => .ok (sets, [.cjkMessage], firstchar.2)
  | 0x4E => convertFirst { sets with set0 := .cyrillic } .table8 firstchar.1 firstchar.2
  | 0x51 => convertFirst { sets with set0 := .extendedCyrillic } .table1 firstchar.1 firstchar.2
  | 0x53 => convertFirst { sets with set0 := .greek } .table11 firstchar.1 firstchar.2
  | 0x32 => convertFirst { sets with set0 := .hebrew } .table6 firstchar.1 firstchar.2
  | _ => .ok (sets, [], firstchar.2)

/-- `*setptr = set` -/
def Sets.store (sets : Sets) (upper : Bool) (set : CharSet) : Sets :=
  if upper then { sets with set1 := set } else { sets with set0 := set }

/-- The finals behind `$`. -/
def finalMulti (sets : Sets) (upper : Bool) (final : ℤ) (firstchar : ℤ × List Byte) : Exec Passed :=
  match final with
  | 0x33 => convertFirst (sets.store upper .arabic) .table9 firstchar.1 firstchar.2
  | 0x42 => latin final firstchar
  | 0x21 => latin final firstchar
  | 0x31 => .ok (sets, [.cjkMessage], firstchar.2)
  | 0x4E => convertFirst (sets.store upper .cyrillic) .table8 firstchar.1 firstchar.2
  | 0x53 => convertFirst (sets.store upper .greek) .table11 firstchar.1 firstchar.2
  | 0x32 => convertFirst (sets.store upper .hebrew) .table6 firstchar.1 firstchar.2
  | _ => .ok (sets, [], firstchar.2)

/-- The finals behind `)` and `-`. -/
def finalG1 (sets : Sets) (final : ℤ) (firstchar : ℤ × List Byte) : Exec Passed :=
  match final with
  | 0x34 => convertFirst { sets with set1 := .extendedArabic } .table10 firstchar.1 firstchar.2
  | 0x42 => latin final firstchar
  | 0x21 => latin final firstchar
  | 0x31 => .ok (sets, [.cjkMessage], firstchar.2)
  | 0x51 => convertFirst { sets with set1 := .extendedCyrillic } .table8 firstchar.1 firstchar.2
  | _ => .ok (sets, [], firstchar.2)

/-- The `switch` behind the escape character. -/
def escape (sets : Sets) (stream : List Byte) : Exec Passed :=
  let code := getchar stream
  let next := getchar code.2
  match code.1 with
  | 0x67 => convertFirst { sets with set0 := .greekSymbols } .table3 next.1 next.2
  | 0x62 => convertFirst { sets with set0 := .subscripts } .table4 next.1 next.2
  | 0x70 => convertFirst { sets with set0 := .superscripts } .table5 next.1 next.2
  | 0x73 => convertFirst .initial .table1 next.1 next.2
  | 0x28 =>
    let final := if next.1 = 0x2C then getchar next.2 else next
    finalG0 sets final.1 (getchar final.2)
  | 0x2C =>
    let final := if next.1 = 0x2C then getchar next.2 else next
    finalG0 sets final.1 (getchar final.2)
  | 0x24 =>
    let final := if next.1 = 0x2C ∨ next.1 = 0x29 ∨ next.1 = 0x2D then getchar next.2 else next
    finalMulti sets (next.1 = 0x29 ∨ next.1 = 0x2D) final.1 (getchar final.2)
  | 0x29 => finalG1 sets next.1 (getchar next.2)
  | 0x2D => finalG1 sets next.1 (getchar next.2)
  | _ => .ok (sets, [], code.2)

/-- The table of the set of a byte's half. -/
def Sets.table (sets : Sets) (b : Byte) : CharTable :=
  if (b : ℕ) ≤ 127 then sets.set0.table else sets.set1.table

/-- One pass of the loop, with the byte that was read. -/
def pass (sets : Sets) (c : Byte) (stream : List Byte) : Exec Passed :=
  if c = 0x1B then escape sets stream else convertFirst sets (sets.table c) (c : ℕ) stream

/-- The loop; every pass reads a byte at least. -/
def convertFrom : ℕ → Sets → List Byte → Exec (List Output)
  | _, _, [] => .ok []
  | 0, _, _ :: _ => .error .unfinished
  | bound + 1, sets, c :: stream => do
    let passed ← pass sets c stream
    let rest ← convertFrom bound passed.1 passed.2.2
    .ok (passed.2.1 ++ rest)

/-- `main` -/
def convMarcUnicode (stream : List Byte) : Exec (List Output) := convertFrom stream.length .initial stream

/-- What stands before the final of an escape sequence. -/
inductive Opening where
  | escape
  | g0 (comma second : Bool)
  | multi (between : Option Byte) (known : ∀ b ∈ between, b ∈ [0x2C, 0x29, 0x2D])
  | g1 (dash : Bool)

def Opening.bytes : Opening → List Byte
  | .escape => [0x1B]
  | .g0 comma second =>
    0x1B :: (if comma then 0x2C else 0x28) :: if second then [0x2C] else []
  | .multi between _ => 0x1B :: 0x24 :: between.toList
  | .g1 dash => [0x1B, if dash then 0x2D else 0x29]

/-- The sequence designates the set of the upper half. -/
def Opening.upper : Opening → Bool
  | .escape => false
  | .g0 _ _ => false
  | .multi between _ => between = some 0x29 ∨ between = some 0x2D
  | .g1 _ => true

inductive Final where
  | greekSymbols
  | subscripts
  | superscripts
  | ascii
  | arabic
  | extendedArabic
  | latin
  | ansel
  | anselE
  | cyrillic
  | extendedCyrillic
  | greek
  | hebrew
deriving DecidableEq, Repr

def Final.bytes : Final → List Byte
  | .greekSymbols => [0x67]
  | .subscripts => [0x62]
  | .superscripts => [0x70]
  | .ascii => [0x73]
  | .arabic => [0x33]
  | .extendedArabic => [0x34]
  | .latin => [0x42]
  | .ansel => [0x21]
  | .anselE => [0x21, 0x45]
  | .cyrillic => [0x4E]
  | .extendedCyrillic => [0x51]
  | .greek => [0x53]
  | .hebrew => [0x32]

/-- The set that a final stands for; the Latin ones stand for both sets. -/
def Final.set : Final → Option CharSet
  | .greekSymbols => some .greekSymbols
  | .subscripts => some .subscripts
  | .superscripts => some .superscripts
  | .ascii | .latin | .ansel | .anselE => none
  | .arabic => some .arabic
  | .extendedArabic => some .extendedArabic
  | .cyrillic => some .cyrillic
  | .extendedCyrillic => some .extendedCyrillic
  | .greek => some .greek
  | .hebrew => some .hebrew

/-- The finals that the converter knows behind an opening. -/
def Opening.finals : Opening → List Final
  | .escape => [.greekSymbols, .subscripts, .superscripts, .ascii]
  | .g0 _ _ =>
    [.arabic, .extendedArabic, .latin, .ansel, .anselE, .cyrillic, .extendedCyrillic, .greek, .hebrew]
  | .multi _ _ => [.arabic, .latin, .ansel, .anselE, .cyrillic, .greek, .hebrew]
  | .g1 _ => [.extendedArabic, .latin, .ansel, .anselE, .extendedCyrillic]

/-- An escape sequence that the converter knows. -/
structure Escape where
  opening : Opening
  final : Final
  known : final ∈ opening.finals

namespace Escape

def bytes (e : Escape) : List Byte := e.opening.bytes ++ e.final.bytes

/-- The sets that an escape sequence designates. -/
def designate (e : Escape) (sets : Sets) : Sets :=
  match e.final.set with
  | none => .initial
  | some set => sets.store e.opening.upper set

/-- The table in which the code of an escape sequence looks up the byte behind it: for the Cyrillic sets
it may be another one than their own. -/
def firstTable (e : Escape) : CharTable :=
  match e.final, e.opening with
  | .cyrillic, _ => .table8
  | .extendedCyrillic, .g0 _ _ => .table1
  | final, _ => (final.set.getD .basicLatin).table

end Escape

inductive Item where
  | data (b : Byte) (plain : b ≠ 0x1B)
  | escape (e : Escape)

def Item.bytes : Item → List Byte
  | .data b _ => [b]
  | .escape e => e.bytes

def bytesOf (items : List Item) : List Byte := items.flatMap Item.bytes

/-- Behind the final `!` an `E` belongs to the escape sequence. -/
def Unambiguous (first second : Item) : Prop :=
  ∀ e b plain, first = .escape e → e.final = .ansel → second = .data b plain → b ≠ 0x45

/-- A stream of data and escape sequences, which may end inside a last sequence. -/
structure MarcStream where
  items : List Item
  unambiguous : items.IsChain Unambiguous
  cut : Option (Opening × ℕ)

def cutBytes : Option (Opening × ℕ) → List Byte
  | none => []
  | some (opening, k) => opening.bytes.take (k + 1)

def MarcStream.bytes (stream : MarcStream) : List Byte := bytesOf stream.items ++ cutBytes stream.cut

/-- Every data byte with the table of the set that the last escape sequence for its half designated. -/
def converted : Sets → List Item → List Output
  | _, [] => []
  | sets, .data b _ :: items => .entry (sets.table b) b :: converted sets items
  | sets, .escape e :: items => converted (e.designate sets) items

/-- Every data byte lies in the table of its set, and every escape sequence has a data byte directly behind
it, for which the table of the sequence is the one of the byte's set. -/
def Followed : Sets → List Item → Prop
  | _, [] => True
  | sets, .data b _ :: items => (b : ℕ) < (sets.table b).size ∧ Followed sets items
  | sets, .escape e :: .data b _ :: items =>
    e.firstTable = (e.designate sets).table b ∧ (b : ℕ) < e.firstTable.size ∧
      Followed (e.designate sets) items
  | _, [.escape _] => False
  | _, .escape _ :: .escape _ :: _ => False

theorem latin_eq {final : ℤ} {firstchar : ℤ × List Byte} (h : ¬(final = 0x21 ∧ firstchar.1 = 0x45)) :
    latin final firstchar = convertFirst .initial .table1 firstchar.1 firstchar.2 := by
  rw [latin, if_neg h]

theorem escape_bytes (e : Escape) (sets : Sets) (rest : List Byte)
    (hrest : e.final = .ansel → (getchar rest).1 ≠ 0x45) :
    escape sets (e.bytes.tail ++ rest) =
      convertFirst (e.designate sets) e.firstTable (getchar rest).1 (getchar rest).2 := by
  obtain ⟨opening, final, known⟩ := e
  have hfinal := known
  cases opening with
  | escape =>
    simp only [Opening.finals, List.mem_cons, List.not_mem_nil, or_false] at hfinal
    rcases hfinal with rfl | rfl | rfl | rfl <;> rfl
  | g0 comma second =>
    simp only [Opening.finals, List.mem_cons, List.not_mem_nil, or_false] at hfinal
    rcases hfinal with rfl | rfl | rfl | rfl | rfl | rfl | rfl | rfl | rfl <;> cases comma <;>
      cases second <;> first | rfl | exact latin_eq fun h ↦ hrest rfl h.2
  | multi between hbetween =>
    simp only [Opening.finals, List.mem_cons, List.not_mem_nil, or_false] at hfinal
    rcases between with _ | b
    · rcases hfinal with rfl | rfl | rfl | rfl | rfl | rfl | rfl <;>
        first | rfl | exact latin_eq fun h ↦ hrest rfl h.2
    · have hb := hbetween b rfl
      simp only [List.mem_cons, List.not_mem_nil, or_false] at hb
      rcases hfinal with rfl | rfl | rfl | rfl | rfl | rfl | rfl <;> rcases hb with rfl | rfl | rfl <;>
        first | rfl | exact latin_eq fun h ↦ hrest rfl h.2
  | g1 dash =>
    simp only [Opening.finals, List.mem_cons, List.not_mem_nil, or_false] at hfinal
    rcases hfinal with rfl | rfl | rfl | rfl | rfl <;> cases dash <;>
      first | rfl | exact latin_eq fun h ↦ hrest rfl h.2

theorem exists_bytes_cons (opening : Opening) : ∃ others, opening.bytes = 0x1B :: others := by
  cases opening <;> exact ⟨_, rfl⟩

theorem escape_cut (opening : Opening) (k : ℕ) (sets : Sets) :
    escape sets (opening.bytes.tail.take k) = .ok (sets, [], []) := by
  cases opening with
  | escape => rcases k with _ | k <;> rfl
  | g0 comma second =>
    cases comma <;> cases second <;> rcases k with _ | _ | _ | k <;> rfl
  | multi between known =>
    rcases between with _ | b
    · rcases k with _ | _ | k <;> rfl
    · have hb := known b rfl
      simp only [List.mem_cons, List.not_mem_nil, or_false] at hb
      rcases hb with rfl | rfl | rfl <;> rcases k with _ | _ | _ | k <;> rfl
  | g1 dash => cases dash <;> rcases k with _ | _ | k <;> rfl

variable {bound : ℕ}

theorem convertFrom_cut (cut : Option (Opening × ℕ)) (hbound : (cutBytes cut).length ≤ bound)
    (sets : Sets) : convertFrom bound sets (cutBytes cut) = .ok [] := by
  rcases cut with _ | ⟨opening, k⟩
  · cases bound <;> rfl
  · obtain ⟨others, hbytes⟩ := exists_bytes_cons opening
    have hcut := escape_cut opening k sets
    rw [hbytes, List.tail_cons] at hcut
    rw [cutBytes, hbytes, List.take_succ_cons] at hbound ⊢
    rcases bound with _ | bound
    · cases hbound
    · change (escape sets (others.take k) >>= _) = _
      rw [hcut]
      cases bound <;> rfl

variable {sets : Sets}

theorem convertFirst_iff {table table' : CharTable} {i : ℤ} {k : ℕ} {stream : List Byte}
    {outputs : List Output} :
    (convertFirst sets table i stream >>= fun passed ↦ convertFrom bound passed.1 passed.2.2 >>= fun rest ↦
        .ok (passed.2.1 ++ rest)) = .ok (.entry table' k :: outputs) ↔
      (0 ≤ i ∧ i < table.size) ∧ (table = table' ∧ i.toNat = k) ∧
        convertFrom bound sets stream = .ok outputs := by
  rw [convertFirst, outfunc]
  split <;> rename_i hin
  · change (convertFrom bound sets stream >>= _) = _ ↔ _
    rcases convertFrom bound sets stream with fault | rest
    · exact iff_of_false (fun h ↦ by cases h) (fun h ↦ by cases h.2.2)
    · change Except.ok (Output.entry table i.toNat :: rest) = _ ↔ _
      simp [hin]
  · exact iff_of_false (fun h ↦ by cases h) (fun h ↦ absurd h.1 hin)

theorem entry_ne_of_mem {items : List Item} :
    ∀ out ∈ converted sets items, ∃ table : CharTable, ∃ b : Byte, out = .entry table b ∧ b ≠ 0x1B := by
  fun_induction converted sets items with
  | case1 => simp
  | case2 sets b plain items ih =>
    intro out hout
    rcases List.mem_cons.mp hout with rfl | hout
    · exact ⟨_, b, rfl, plain⟩
    · exact ih out hout
  | case3 sets e items ih => exact ih

theorem convertFrom_escape (e : Escape) {rest : List Byte}
    (hrest : e.final = .ansel → (getchar rest).1 ≠ 0x45) :
    convertFrom (bound + 1) sets (e.bytes ++ rest) =
      (convertFirst (e.designate sets) e.firstTable (getchar rest).1 (getchar rest).2 >>= fun passed ↦
        convertFrom bound passed.1 passed.2.2 >>= fun rest ↦ .ok (passed.2.1 ++ rest)) := by
  obtain ⟨others, hothers⟩ := exists_bytes_cons e.opening
  have hbytes : e.bytes = 0x1B :: (others ++ e.final.bytes) := by rw [Escape.bytes, hothers]; rfl
  have hescape := escape_bytes e sets rest hrest
  rw [hbytes, List.tail_cons] at hescape
  rw [hbytes, ← hescape]
  rfl

theorem convertFrom_unfollowed {sets' : Sets} {e : Escape} {items : List Item} {rest : List Byte}
    (hrest : rest = [] ∨ ∃ others, rest = 0x1B :: others) :
    convertFrom bound sets (e.bytes ++ rest) ≠ .ok (converted sets' items) := by
  have hunambiguous : e.final = .ansel → (getchar rest).1 ≠ 0x45 := fun _ ↦ by
    rcases hrest with rfl | ⟨others, rfl⟩
    · decide
    · exact fun h ↦ absurd h (by decide : (((0x1B : Byte) : ℕ) : ℤ) ≠ 0x45)
  rcases bound with _ | bound
  · obtain ⟨others, hothers⟩ := exists_bytes_cons e.opening
    rw [Escape.bytes, hothers]
    exact fun h ↦ by cases h
  · rw [convertFrom_escape e hunambiguous]
    rcases hrest with rfl | ⟨others, rfl⟩
    · exact fun h ↦ by cases h
    · intro h
      rcases houtputs : converted sets' items with _ | ⟨out, outputs⟩
      · rw [houtputs, convertFirst] at h
        obtain ⟨passed, hpassed, h⟩ := bind_eq_ok.mp h
        obtain ⟨out, -, hout⟩ := bind_eq_ok.mp hpassed
        obtain ⟨rest, -, h⟩ := bind_eq_ok.mp h
        rw [← Except.ok.inj hout] at h
        cases h
      · obtain ⟨table, b, rfl, hb⟩ := entry_ne_of_mem out (houtputs ▸ List.mem_cons_self)
        rw [houtputs] at h
        obtain ⟨-, ⟨-, hindex⟩, -⟩ := convertFirst_iff.mp h
        exact hb (Fin.ext hindex.symm)

theorem convertFrom_iff (cut : Option (Opening × ℕ)) (sets : Sets) (items : List Item) (bound : ℕ)
    (hchain : items.IsChain Unambiguous) (hbound : (bytesOf items ++ cutBytes cut).length ≤ bound) :
    convertFrom bound sets (bytesOf items ++ cutBytes cut) = .ok (converted sets items) ↔
      Followed sets items := by
  fun_induction Followed sets items generalizing bound with
  | case1 sets => exact iff_of_true (convertFrom_cut cut hbound sets) trivial
  | case2 sets b plain items ih =>
    rcases bound with _ | bound
    · cases hbound
    have hpass : pass sets b (bytesOf items ++ cutBytes cut) =
        convertFirst sets (sets.table b) (b : ℕ) (bytesOf items ++ cutBytes cut) := if_neg plain
    have hsize : (0 : ℤ) ≤ (b : ℕ) ∧ ((b : ℕ) : ℤ) < (sets.table b).size ↔
        (b : ℕ) < (sets.table b).size := by omega
    change (pass sets b (bytesOf items ++ cutBytes cut) >>= _) = _ ↔ _
    rw [hpass, converted, convertFirst_iff, hsize, ih bound hchain.tail (Nat.le_of_succ_le_succ hbound)]
    simp
  | case3 sets e b plain items ih =>
    obtain ⟨hhead, htail⟩ := List.isChain_cons_cons.mp hchain
    have hrest : e.final = .ansel → (getchar (b :: (bytesOf items ++ cutBytes cut))).1 ≠ 0x45 := by
      intro hansel heq
      have hbyte : ((b : ℕ) : ℤ) = 0x45 := heq
      exact hhead e b plain rfl hansel rfl (Fin.ext (by exact_mod_cast hbyte))
    have hbytes : bytesOf (.escape e :: .data b plain :: items) ++ cutBytes cut =
        e.bytes ++ (b :: (bytesOf items ++ cutBytes cut)) := by
      simp [bytesOf, Item.bytes]
    have hlength : (bytesOf items ++ cutBytes cut).length + 1 ≤ bound := by
      rw [hbytes, List.length_append, List.length_cons] at hbound
      omega
    rcases bound with _ | bound
    · cases hlength
    have hsize : (0 : ℤ) ≤ (b : ℕ) ∧ ((b : ℕ) : ℤ) < e.firstTable.size ↔ (b : ℕ) < e.firstTable.size := by
      omega
    rw [hbytes, convertFrom_escape e hrest, converted, converted]
    rw [getchar, convertFirst_iff, hsize, ih bound htail.tail (Nat.le_of_succ_le_succ hlength)]
    simp only [Int.toNat_natCast, and_true]
    tauto
  | case4 sets e =>
    have hrest : cutBytes cut = [] ∨ ∃ others, cutBytes cut = 0x1B :: others := by
      rcases cut with _ | ⟨opening, k⟩
      · exact .inl rfl
      · obtain ⟨others, hothers⟩ := exists_bytes_cons opening
        exact .inr ⟨_, by rw [cutBytes, hothers, List.take_succ_cons]⟩
    have hbytes : bytesOf [.escape e] ++ cutBytes cut = e.bytes ++ cutBytes cut := by
      simp [bytesOf, Item.bytes]
    rw [hbytes]
    exact iff_of_false (convertFrom_unfollowed hrest) not_false
  | case5 sets e e' items =>
    obtain ⟨others, hothers⟩ := exists_bytes_cons e'.opening
    have hbytes : bytesOf (.escape e :: .escape e' :: items) ++ cutBytes cut =
        e.bytes ++ (0x1B :: (others ++ e'.final.bytes ++ bytesOf items ++ cutBytes cut)) := by
      simp [bytesOf, Item.bytes, Escape.bytes, hothers]
    rw [hbytes]
    exact iff_of_false (convertFrom_unfollowed (.inr ⟨_, rfl⟩)) not_false

/-- A letter in Basic Cyrillic. -/
def cyrillicLetter : MarcStream where
  items := [.escape ⟨.g0 false false, .cyrillic, by decide⟩, .data 0x41 (by decide)]
  unambiguous := by
    rw [List.isChain_cons_cons]
    refine ⟨?_, List.isChain_singleton _⟩
    rintro e b plain heq hfinal
    cases heq
    cases hfinal
  cut := none

end Cheshire.Marc8
