/-
Feldspar/Lib/CardText.lean

Card decks: text in which a line that begins with an asterisk is a keyword
line, and the lines below it are its data, as comma-separated fields.  A data
line that ends with a comma goes on in the next line, and an empty line says
nothing.

`read` is the reader of such a text, and `Wraps` says that lines are a record
broken after any of its fields.  What is read of a text made of keyword lines and
wrapped records is these keyword lines and records (`read_render`), provided
that the fields have no comma and no line feed in them, are not empty and do
not begin with an asterisk (`IsField`).
-/
import Feldspar.Lib.Fallible
import Mathlib.Data.String.Basic

namespace CardText

/-! ### Reading -/

/-- A keyword line, as its fields, with the records below it. -/
structure Card where
  keyword : List String
  records : List (List String)
  deriving DecidableEq, Repr

/-- The parts of a text between the separators. -/
def splitAt (sep : Char) (text : String) : List String :=
  (text.toList.splitOn sep).map String.ofList

def lines (text : String) : List String := splitAt '\n' text

def fields (line : String) : List String := splitAt ',' line

def IsKeyword (line : String) : Prop := line.toList.head? = some '*'

instance (line : String) : Decidable (IsKeyword line) := inferInstanceAs (Decidable (_ = _))

/-- The records of some data lines: a last field that is empty says that the
record goes on. -/
def joinRecords : List (List String) → List (List String)
  | [] => []
  | line :: rest =>
      if line.getLast? = some "" then
        match joinRecords rest with
        | [] => [line.dropLast]
        | record :: records => (line.dropLast ++ record) :: records
      else line :: joinRecords rest

/-- The data lines before the first keyword line, and the cards. -/
def scan : List String → List (List String) × List Card
  | [] => ([], [])
  | line :: rest =>
      let below := scan rest
      if line = "" then below
      else if IsKeyword line then ([], ⟨fields line, joinRecords below.1⟩ :: below.2)
      else (fields line :: below.1, below.2)

/-- The cards of a text. -/
def read (text : String) : List Card := (scan (lines text)).2

example : read "*NODE\n1,0.5\n*NSET, NSET=A\n1,\n2\n" =
    [⟨["*NODE"], [["1", "0.5"]]⟩, ⟨["*NSET", " NSET=A"], [["1", "2"]]⟩] := by decide +kernel

/-! ### Fields -/

/-- What can be a field of a record. -/
structure IsField (s : String) : Prop where
  nonempty : s ≠ ""
  noComma : ',' ∉ s.toList
  noBreak : '\n' ∉ s.toList
  noStar : s.toList.head? ≠ some '*'

instance (s : String) : Decidable (IsField s) :=
  decidable_of_iff (s ≠ "" ∧ ',' ∉ s.toList ∧ '\n' ∉ s.toList ∧ s.toList.head? ≠ some '*')
    ⟨fun h => ⟨h.1, h.2.1, h.2.2.1, h.2.2.2⟩, fun h => ⟨h.nonempty, h.noComma, h.noBreak, h.noStar⟩⟩

section Split

variable {sep : Char} {parts : List String}

theorem splitAt_intercalate (hne : parts ≠ []) (hparts : ∀ part ∈ parts, sep ∉ part.toList) :
    splitAt sep ((String.ofList [sep]).intercalate parts) = parts := by
  rw [splitAt, String.toList_intercalate, String.toList_ofList, List.splitOn_intercalate, List.map_map]
  · simp
  · simpa using hparts
  · simpa using hne

/-- A separator at the end leaves an empty part. -/
theorem splitAt_intercalate_append (hne : parts ≠ []) (hparts : ∀ part ∈ parts, sep ∉ part.toList) :
    splitAt sep ((String.ofList [sep]).intercalate parts ++ String.ofList [sep]) = parts ++ [""] := by
  have happend : (String.ofList [sep]).intercalate parts ++ String.ofList [sep]
      = (String.ofList [sep]).intercalate (parts ++ [""]) := by
    rw [String.intercalate_append_of_ne_nil hne (List.cons_ne_nil _ _), String.intercalate_singleton]
    simp
  rw [happend, splitAt_intercalate (by simp)]
  intro part hpart
  rcases List.mem_append.mp hpart with h | h
  · exact hparts part h
  · rw [List.mem_singleton.mp h]
    exact List.not_mem_nil

/-- A text of texts is the text of all lines. -/
theorem intercalate_flatten (sep : String) : ∀ {sections : List (List String)},
    (∀ lines ∈ sections, lines ≠ []) →
    sep.intercalate (sections.map sep.intercalate) = sep.intercalate sections.flatten := by
  intro sections
  induction sections with
  | nil => exact fun _ => rfl
  | cons first rest ih =>
      intro h
      obtain ⟨hfirst, hrest⟩ := List.forall_mem_cons.mp h
      rw [List.map_cons, List.flatten_cons]
      -- a separator stands between two texts only, so the last one is a case apart
      rcases rest with - | ⟨second, rest⟩
      · rw [List.map_nil, String.intercalate_singleton, List.flatten_nil, List.append_nil]
      · have hne : (second :: rest).flatten ≠ [] := by
          rw [List.flatten_cons]
          exact List.append_ne_nil_of_left_ne_nil (hrest second List.mem_cons_self) _
        rw [String.intercalate_cons_of_ne_nil (by simp), ih hrest,
          String.intercalate_append_of_ne_nil hfirst hne]

theorem head?_intercalate {first : String} (hfirst : first ≠ "") (sep : String)
    (rest : List String) : (sep.intercalate (first :: rest)).toList.head? = first.toList.head? := by
  have hne : first.toList ≠ [] := fun h => hfirst (String.toList_eq_nil_iff.mp h)
  rcases rest with - | ⟨second, rest⟩
  · rw [String.intercalate_singleton]
  · rw [String.intercalate_cons_cons, String.append_assoc, String.toList_append,
      List.head?_append_of_ne_nil _ hne]

end Split

/-! ### Records -/

/-- Lines that together are this record: each but the last ends with a comma. -/
inductive Wraps : List String → List String → Prop
  | last {fs : List String} (hne : fs ≠ []) : Wraps [",".intercalate fs] fs
  | more {fs rest : List String} {ls : List String} (hne : fs ≠ []) (h : Wraps ls rest) :
      Wraps ((",".intercalate fs ++ ",") :: ls) (fs ++ rest)

section Records

variable {ls fs record : List String}

theorem fields_intercalate (hne : fs ≠ []) (hfs : ∀ f ∈ fs, IsField f) :
    fields (",".intercalate fs) = fs :=
  splitAt_intercalate hne fun f hf => (hfs f hf).noComma

theorem fields_intercalate_append (hne : fs ≠ []) (hfs : ∀ f ∈ fs, IsField f) :
    fields (",".intercalate fs ++ ",") = fs ++ [""] :=
  splitAt_intercalate_append hne fun f hf => (hfs f hf).noComma

theorem getLast?_ne_empty (hfs : ∀ f ∈ fs, IsField f) : fs.getLast? ≠ some "" :=
  fun h => (hfs "" (List.mem_of_getLast? h)).nonempty rfl

/-- A record is read back from its lines. -/
theorem Wraps.joinRecords_append (h : Wraps ls record) (hfs : ∀ f ∈ record, IsField f)
    (rest : List (List String)) :
    joinRecords (ls.map fields ++ rest) = record :: joinRecords rest := by
  -- a line that goes on is read with an empty last field, which is dropped again
  induction h with
  | last hne =>
      rw [List.map_singleton, List.singleton_append, fields_intercalate hne hfs, joinRecords,
        if_neg (getLast?_ne_empty hfs)]
  | more hne h ih =>
      obtain ⟨hfs, hrest⟩ := List.forall_mem_append.mp hfs
      rw [List.map_cons, List.cons_append, fields_intercalate_append hne hfs, joinRecords,
        if_pos List.getLast?_concat, ih hrest, List.dropLast_concat]

/-- A line of fields is neither empty nor a keyword line. -/
theorem dataLine (hne : fs ≠ []) (hfs : ∀ f ∈ fs, IsField f) (suffix : String) :
    ",".intercalate fs ++ suffix ≠ "" ∧ ¬ IsKeyword (",".intercalate fs ++ suffix) := by
  obtain ⟨first, rest, rfl⟩ := List.exists_cons_of_ne_nil hne
  obtain ⟨hfirst, -⟩ := List.forall_mem_cons.mp hfs
  have hhead := head?_intercalate hfirst.nonempty "," rest
  have hsome : (",".intercalate (first :: rest)).toList ≠ [] := by
    intro h
    rw [h] at hhead
    exact hfirst.nonempty (String.toList_eq_nil_iff.mp (List.head?_eq_none_iff.mp hhead.symm))
  constructor
  · intro h
    have := congrArg String.toList h
    rw [String.toList_append] at this
    exact hsome (List.append_eq_nil_iff.mp this).1
  · rw [IsKeyword, String.toList_append, List.head?_append_of_ne_nil _ hsome, hhead]
    exact hfirst.noStar

theorem Wraps.dataLines (h : Wraps ls record) (hfs : ∀ f ∈ record, IsField f) :
    ∀ line ∈ ls, line ≠ "" ∧ ¬ IsKeyword line := by
  induction h with
  | @last fs hne =>
      rw [List.forall_mem_singleton]
      simpa using dataLine hne hfs ""
  | more hne h ih =>
      obtain ⟨hfs, hrest⟩ := List.forall_mem_append.mp hfs
      exact List.forall_mem_cons.mpr ⟨dataLine hne hfs ",", ih hrest⟩

end Records

/-! ### Cards -/

/-- Blank lines are of no account. -/
theorem scan_filter (ls : List String) : scan (ls.filter (· ≠ "")) = scan ls := by
  induction ls with
  | nil => rfl
  | cons line ls ih =>
      by_cases h : line = ""
      · rw [List.filter_cons_of_neg (by simp [h]), ih]
        simp only [scan, if_pos h]
      · rw [List.filter_cons_of_pos (by simp [h]), scan, scan, ih]

theorem scan_data {ls : List String} (h : ∀ line ∈ ls, line ≠ "" ∧ ¬ IsKeyword line)
    (rest : List String) : scan (ls ++ rest) = (ls.map fields ++ (scan rest).1, (scan rest).2) := by
  induction ls with
  | nil => rfl
  | cons line ls ih =>
      obtain ⟨⟨hne, hkey⟩, hls⟩ := List.forall_mem_cons.mp h
      simp only [List.cons_append, scan, ih hls, if_neg hne, if_neg hkey, List.map_cons]

/-- The lines, blank ones apart, are a keyword line and wrapped records. -/
structure Renders (ls : List String) (card : Card) : Prop where
  keyword : ∃ name rest, card.keyword = name :: rest ∧ name.toList.head? = some '*' ∧
    ∀ f ∈ card.keyword, ',' ∉ f.toList
  fields : ∀ record ∈ card.records, ∀ f ∈ record, IsField f
  lines : ∃ wrapped, List.Forall₂ Wraps wrapped card.records ∧
    ls.filter (· ≠ "") = ",".intercalate card.keyword :: wrapped.flatten

theorem scan_renders {ls : List String} {card : Card} (h : Renders ls card) {rest : List String}
    (hrest : (scan rest).1 = []) : scan (ls ++ rest) = ([], card :: (scan rest).2) := by
  obtain ⟨⟨name, params, hkeyword, hstar, hcomma⟩, hfields, wrapped, hwraps, hls⟩ := h
  have hdata : ∀ line ∈ wrapped.flatten, line ≠ "" ∧ ¬ IsKeyword line := by
    intro line hline
    obtain ⟨ls, hls, hmem⟩ := List.mem_flatten.mp hline
    obtain ⟨record, hrecord, hwrap⟩ := Fallible.exists_of_mem_left hwraps hls
    exact hwrap.dataLines (hfields record hrecord) line hmem
  have hjoin : ∀ {wrapped : List (List String)} {records : List (List String)},
      List.Forall₂ Wraps wrapped records → (∀ record ∈ records, ∀ f ∈ record, IsField f) →
      joinRecords (wrapped.flatten.map fields) = records := by
    intro wrapped records hwraps hfields
    induction hwraps with
    | nil => rfl
    | cons hwrap _ ih =>
        obtain ⟨hfirst, hrest⟩ := List.forall_mem_cons.mp hfields
        rw [List.flatten_cons, List.map_append, hwrap.joinRecords_append hfirst, ih hrest]
  have hname : name ≠ "" := by
    rintro rfl
    cases hstar
  have hkey : IsKeyword (",".intercalate card.keyword) := by
    rw [IsKeyword, hkeyword, head?_intercalate hname]
    exact hstar
  have hne : ",".intercalate card.keyword ≠ "" := by
    intro hempty
    rw [hempty] at hkey
    cases hkey
  have hkeywordFields : CardText.fields (",".intercalate card.keyword) = card.keyword :=
    splitAt_intercalate (by rw [hkeyword]; exact List.cons_ne_nil _ _) hcomma
  rw [← scan_filter, List.filter_append, hls, List.cons_append]
  have hscan := scan_data hdata (rest.filter (· ≠ ""))
  rw [scan_filter, hrest, List.append_nil] at hscan
  simp only [scan, hscan, if_neg hne, if_pos hkey, hkeywordFields, hjoin hwraps hfields]

/-- **Reading back**: the cards of a text of sections that render them. -/
theorem read_render {sections : List (List String)} {cards : List Card}
    (h : List.Forall₂ Renders sections cards)
    (hbreak : ∀ ls ∈ sections, ∀ line ∈ ls, '\n' ∉ line.toList) (hne : sections ≠ []) :
    read ("\n".intercalate (sections.map "\n".intercalate) ++ "\n") = cards := by
  have hsections : ∀ ls ∈ sections, ls ≠ [] := by
    rintro ls hls rfl
    obtain ⟨card, -, hrenders⟩ := Fallible.exists_of_mem_left h hls
    obtain ⟨wrapped, -, hlines⟩ := hrenders.lines
    cases hlines
  have hscan : ∀ {sections : List (List String)} {cards : List Card},
      List.Forall₂ Renders sections cards → scan (sections.flatten ++ [""]) = ([], cards) := by
    intro sections cards h
    induction h with
    | nil => rfl
    | cons hfirst _ ih =>
        rw [List.flatten_cons, List.append_assoc, scan_renders hfirst (by rw [ih]), ih]
  -- the line feed at the end leaves one more line, which is blank
  have hflatten : sections.flatten ≠ [] := by
    obtain ⟨first, rest, rfl⟩ := List.exists_cons_of_ne_nil hne
    rw [List.flatten_cons]
    exact List.append_ne_nil_of_left_ne_nil (hsections first List.mem_cons_self) _
  have hlines : lines ("\n".intercalate sections.flatten ++ "\n") = sections.flatten ++ [""] :=
    splitAt_intercalate_append hflatten fun line hline => by
      obtain ⟨ls, hls, hmem⟩ := List.mem_flatten.mp hline
      exact hbreak ls hls line hmem
  rw [read, intercalate_flatten _ hsections, hlines, hscan h]

/-! ### Blocks -/

/-- What can be the keyword line of a card. -/
structure IsKeywordLine (keyword : List String) : Prop where
  star : (keyword.head?.bind fun name => name.toList.head?) = some '*'
  noComma : ∀ f ∈ keyword, ',' ∉ f.toList
  noBreak : ∀ f ∈ keyword, '\n' ∉ f.toList

instance (keyword : List String) : Decidable (IsKeywordLine keyword) :=
  decidable_of_iff (_ ∧ (∀ f ∈ keyword, ',' ∉ f.toList) ∧ ∀ f ∈ keyword, '\n' ∉ f.toList)
    ⟨fun h => ⟨h.1, h.2.1, h.2.2⟩, fun h => ⟨h.star, h.noComma, h.noBreak⟩⟩

/-- A text with these cards in it, one below the other. -/
def IsBlock (text : String) (cards : List Card) : Prop :=
  ∃ sections : List (List String), sections ≠ [] ∧ List.Forall₂ Renders sections cards ∧
    (∀ ls ∈ sections, ∀ line ∈ ls, '\n' ∉ line.toList) ∧
    text = "\n".intercalate (sections.map "\n".intercalate)

theorem IsBlock.congr {text text' : String} {cards cards' : List Card} (h : IsBlock text cards)
    (htext : text' = text) (hcards : cards' = cards) : IsBlock text' cards' :=
  htext ▸ hcards ▸ h

theorem not_mem_intercalate {c : Char} {sep : String} (hsep : c ∉ sep.toList) :
    ∀ {parts : List String}, (∀ part ∈ parts, c ∉ part.toList) →
      c ∉ (sep.intercalate parts).toList := by
  intro parts
  induction parts with
  | nil => exact fun _ => List.not_mem_nil
  | cons first rest ih =>
      intro h
      obtain ⟨hfirst, hrest⟩ := List.forall_mem_cons.mp h
      by_cases hnil : rest = []
      · rw [hnil, String.intercalate_singleton]
        exact hfirst
      · rw [String.intercalate_cons_of_ne_nil hnil, String.toList_append, String.toList_append]
        simp only [List.mem_append, not_or]
        exact ⟨⟨hfirst, hsep⟩, ih hrest⟩

theorem Wraps.noBreak {ls record : List String} (h : Wraps ls record)
    (hfs : ∀ f ∈ record, IsField f) : ∀ line ∈ ls, '\n' ∉ line.toList := by
  induction h with
  | last hne =>
      rw [List.forall_mem_singleton]
      exact not_mem_intercalate (by decide) fun f hf => (hfs f hf).noBreak
  | more hne h ih =>
      obtain ⟨hfs, hrest⟩ := List.forall_mem_append.mp hfs
      refine List.forall_mem_cons.mpr ⟨?_, ih hrest⟩
      rw [String.toList_append, List.mem_append, not_or]
      exact ⟨not_mem_intercalate (by decide) fun f hf => (hfs f hf).noBreak, by decide⟩

/-- One card, with its data lines; some of them may be blank. -/
theorem isBlock_card {keyword ls : List String} {records wrapped : List (List String)}
    (hkeyword : IsKeywordLine keyword) (hwraps : List.Forall₂ Wraps wrapped records)
    (hfields : ∀ record ∈ records, ∀ f ∈ record, IsField f)
    (hls : ls.filter (· ≠ "") = wrapped.flatten) :
    IsBlock ("\n".intercalate (",".intercalate keyword :: ls)) [⟨keyword, records⟩] := by
  have hstar := hkeyword.star
  rcases keyword with - | ⟨name, params⟩
  · cases hstar
  have hname : name.toList.head? = some '*' := hstar
  have hne : ",".intercalate (name :: params) ≠ "" := by
    intro hempty
    have hhead := head?_intercalate (show name ≠ "" by rintro rfl; cases hname) "," params
    rw [hempty, hname] at hhead
    cases hhead
  refine ⟨[",".intercalate (name :: params) :: ls], List.cons_ne_nil _ _, ?_, ?_, ?_⟩
  · refine List.Forall₂.cons ⟨⟨name, params, rfl, hname, hkeyword.noComma⟩, hfields,
      wrapped, hwraps, ?_⟩ List.Forall₂.nil
    rw [List.filter_cons_of_pos (by simpa using hne), hls]
  · rw [List.forall_mem_singleton, List.forall_mem_cons]
    refine ⟨not_mem_intercalate (by decide) hkeyword.noBreak, fun line hline => ?_⟩
    -- a line that is not blank is one of the wrapped records
    by_cases hblank : line = ""
    · rw [hblank]
      exact List.not_mem_nil
    · have hmem : line ∈ wrapped.flatten := hls ▸ List.mem_filter.mpr ⟨hline, by simpa using hblank⟩
      obtain ⟨ls', hls', hmem'⟩ := List.mem_flatten.mp hmem
      obtain ⟨record, hrecord, hwrap⟩ := Fallible.exists_of_mem_left hwraps hls'
      exact hwrap.noBreak (hfields record hrecord) line hmem'
  · rw [List.map_singleton, String.intercalate_singleton]

/-- A card with nothing below it. -/
theorem isBlock_keyword {keyword : List String} (hkeyword : IsKeywordLine keyword) :
    IsBlock (",".intercalate keyword) [⟨keyword, []⟩] := by
  have hblock := isBlock_card hkeyword List.Forall₂.nil
    (fun _ hmem => absurd hmem List.not_mem_nil) (show ([] : List String).filter (· ≠ "") = [] from rfl)
  rwa [String.intercalate_singleton] at hblock

theorem Wraps.ne_nil {ls record : List String} (h : Wraps ls record) : ls ≠ [] := by
  cases h <;> exact List.cons_ne_nil _ _

/-- A card with wrapped records. -/
theorem isBlock_wrapped {keyword : List String} {records wrapped : List (List String)}
    (hkeyword : IsKeywordLine keyword) (hwraps : List.Forall₂ Wraps wrapped records)
    (hfields : ∀ record ∈ records, ∀ f ∈ record, IsField f) :
    IsBlock ("\n".intercalate (",".intercalate keyword :: wrapped.map "\n".intercalate))
      [⟨keyword, records⟩] := by
  have hwrapped : ∀ ls ∈ wrapped, ∃ record ∈ records, Wraps ls record := fun ls hls =>
    Fallible.exists_of_mem_left hwraps hls
  have hne : ∀ ls ∈ [",".intercalate keyword] :: wrapped, ls ≠ [] := by
    refine List.forall_mem_cons.mpr ⟨List.cons_ne_nil _ _, fun ls hls => ?_⟩
    obtain ⟨record, -, hwrap⟩ := hwrapped ls hls
    exact hwrap.ne_nil
  have hflatten := intercalate_flatten "\n" hne
  rw [List.map_cons, String.intercalate_singleton, List.flatten_cons, List.singleton_append]
    at hflatten
  rw [hflatten]
  refine isBlock_card hkeyword hwraps hfields (List.filter_eq_self.mpr fun line hline => ?_)
  obtain ⟨ls, hls, hmem⟩ := List.mem_flatten.mp hline
  obtain ⟨record, hrecord, hwrap⟩ := hwrapped ls hls
  simpa using (hwrap.dataLines (hfields record hrecord) line hmem).1

/-- A card with records of one line each. -/
theorem isBlock_records {keyword : List String} {records : List (List String)}
    (hkeyword : IsKeywordLine keyword) (hne : ∀ record ∈ records, record ≠ [])
    (hfields : ∀ record ∈ records, ∀ f ∈ record, IsField f) :
    IsBlock ("\n".intercalate (",".intercalate keyword :: records.map ",".intercalate))
      [⟨keyword, records⟩] := by
  have hwraps : List.Forall₂ Wraps (records.map fun record => [",".intercalate record]) records := by
    rw [List.forall₂_map_left_iff, List.forall₂_same]
    exact fun record hrecord => Wraps.last (hne record hrecord)
  have hblock := isBlock_wrapped hkeyword hwraps hfields
  rw [List.map_map] at hblock
  simpa [Function.comp_def] using hblock

theorem IsBlock.append {a b : String} {cs ds : List Card} (h : IsBlock a cs) (h' : IsBlock b ds) :
    IsBlock (a ++ "\n" ++ b) (cs ++ ds) := by
  obtain ⟨sections, hne, hrenders, hbreak, rfl⟩ := h
  obtain ⟨sections', hne', hrenders', hbreak', rfl⟩ := h'
  refine ⟨sections ++ sections', List.append_ne_nil_of_left_ne_nil hne _,
    List.rel_append hrenders hrenders', List.forall_mem_append.mpr ⟨hbreak, hbreak'⟩, ?_⟩
  rw [List.map_append, String.intercalate_append_of_ne_nil (by simpa using hne) (by simpa using hne')]

theorem IsBlock.intercalate : ∀ {blocks : List String} {cards : List (List Card)},
    List.Forall₂ IsBlock blocks cards → blocks ≠ [] →
    IsBlock ("\n".intercalate blocks) cards.flatten := by
  intro blocks cards h
  induction h with
  | nil => exact fun hne => absurd rfl hne
  | @cons block cards blocks rest hfirst hrest ih =>
      intro _
      rw [List.flatten_cons]
      by_cases hnil : blocks = []
      · subst hnil
        cases hrest
        rw [String.intercalate_singleton, List.flatten_nil, List.append_nil]
        exact hfirst
      · rw [String.intercalate_cons_of_ne_nil hnil]
        exact hfirst.append (ih hnil)

/-- The cards of a text of blocks. -/
theorem read_blocks {blocks : List String} {cards : List (List Card)}
    (h : List.Forall₂ IsBlock blocks cards) (hne : blocks ≠ []) :
    read ("\n".intercalate blocks ++ "\n") = cards.flatten := by
  obtain ⟨sections, hsections, hrenders, hbreak, htext⟩ := IsBlock.intercalate h hne
  rw [htext]
  exact read_render hrenders hbreak hsections

end CardText
