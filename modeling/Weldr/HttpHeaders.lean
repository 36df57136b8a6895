import Weldr.OrderedCollections
import Weldr.DelimitedText

/-! The header collections of `hyper`, as far as the proxy uses them. Their operations are a
parameter, and what is relied on of each of them is a law of its own. A value is the lines it
was received in, as bytes: a line that is not UTF-8 has no typed value. -/
namespace HttpHeaders

open OrderedCollections DelimitedText

/-- Names are compared as `eq_ignore_ascii_case` compares them. -/
def foldCase (bytes : ByteArray) : List UInt8 :=
  bytes.data.toList.map fun b => if 65 ≤ b ∧ b ≤ 90 then b + 32 else b

def foldName (name : String) : List UInt8 := foldCase name.toUTF8

/-- `char::is_whitespace`, by which `str::trim` trims. -/
def isWhitespace (c : Char) : Bool :=
  let n := c.toNat
  (9 ≤ n ∧ n ≤ 13) ∨ n ∈ [0x20, 0x85, 0xA0, 0x1680] ∨ (0x2000 ≤ n ∧ n ≤ 0x200A) ∨
    n ∈ [0x2028, 0x2029, 0x202F, 0x205F, 0x3000]

def trimText (s : String) : String := String.ofList (trim isWhitespace s.toList)

def commaSeparated (s : String) : List String :=
  (items (· = ',') isWhitespace s.toList).map String.ofList

def textsOf (lines : List ByteArray) : List String :=
  (lines.filterMap String.fromUTF8?).flatMap commaSeparated

/-- The entries of a line of a list-valued header. A line that is no text is cut at its commas,
and blanks and tabs around the pieces do not count. -/
def entries (line : ByteArray) : List ByteArray :=
  match String.fromUTF8? line with
  | some s => (commaSeparated s).map String.toUTF8
  | none => (items (· = 44) (fun b => b = 32 ∨ b = 9) line.data.toList).map fun l => ⟨l.toArray⟩

def OneLine (s : String) : Prop := '\r' ∉ s.toList ∧ '\n' ∉ s.toList

instance (s : String) : Decidable (OneLine s) := inferInstanceAs (Decidable (_ ∧ _))

inductive TypedHeader where
  | via
  | te
  | proxyAuthorization
  | proxyAuthenticate
  | trailer
  | connection
  | transferEncoding
  | upgrade
  | host
  deriving DecidableEq, Repr

def TypedHeader.headerName : TypedHeader → String
  | .via => "Via"
  | .te => "TE"
  | .proxyAuthorization => "Proxy-Authorization"
  | .proxyAuthenticate => "Proxy-Authenticate"
  | .trailer => "Trailer"
  | .connection => "Connection"
  | .transferEncoding => "Transfer-Encoding"
  | .upgrade => "Upgrade"
  | .host => "Host"

inductive ConnectionOption where
  | close
  | keepAlive
  | connectionHeader (name : String)
  deriving DecidableEq, Repr

def ConnectionOption.fromStr (s : String) : ConnectionOption :=
  if foldName s = foldName "keep-alive" then .keepAlive
  else if foldName s = foldName "close" then .close
  else .connectionHeader s

/-- What `hyper::Headers` does for the proxy. `getVia` is `get` of a header that is declared as
one `String`; `set` takes what the typed value prints as. The headers of a message that was read
off a connection are `Received`: none of their values was set with its type. -/
structure HyperHeaders (Headers : Type) where
  new : Headers
  getRaw : Headers → String → Option (List ByteArray)
  getConnection : Headers → Option (List ConnectionOption)
  getVia : Headers → Option String
  removeRaw : Headers → String → Headers
  remove : Headers → TypedHeader → Headers
  set : Headers → TypedHeader → String → Headers
  extend : Headers → Headers → Headers
  Received : Headers → Prop

namespace HyperHeaders

variable {Headers : Type} (lib : HyperHeaders Headers)

def Has (h : Headers) (name : String) : Prop := (lib.getRaw h name).isSome

instance (h : Headers) (name : String) : Decidable (lib.Has h name) :=
  inferInstanceAs (Decidable (_ = true))

def linesOf (h : Headers) (name : String) : List ByteArray := (lib.getRaw h name).getD []

def entriesOf (h : Headers) (name : String) : List ByteArray := (lib.linesOf h name).flatMap entries

/-- The header is named by an option of the collection's own `Connection` header. -/
def NamedByConnection (h : Headers) (name : String) : Prop :=
  ∃ o ∈ lib.entriesOf h "Connection", foldCase o = foldName name

instance (h : Headers) (name : String) : Decidable (lib.NamedByConnection h name) :=
  inferInstanceAs (Decidable (∃ o ∈ lib.entriesOf h "Connection", foldCase o = foldName name))

def Readable (h : Headers) (name : String) : Prop :=
  ∀ line ∈ lib.linesOf h name, (String.fromUTF8? line).isSome

instance (h : Headers) (name : String) : Decidable (lib.Readable h name) :=
  inferInstanceAs (Decidable (∀ line ∈ lib.linesOf h name, _))

/-- `remove_raw` and `remove` take all lines of a name away, in whatever case it was written. -/
structure Removes : Prop where
  raw : ∀ h name name', lib.getRaw (lib.removeRaw h name) name' =
    if foldName name' = foldName name then none else lib.getRaw h name'
  typed : ∀ h t name', lib.getRaw (lib.remove h t) name' =
    if foldName name' = foldName t.headerName then none else lib.getRaw h name'

/-- `set` replaces all lines of a name by one, and leaves the other names alone. -/
structure Sets : Prop where
  same : ∀ h t s name, OneLine s → foldName name = foldName t.headerName →
    lib.getRaw (lib.set h t s) name = some [s.toUTF8]
  other : ∀ h t s name, foldName name ≠ foldName t.headerName →
    lib.getRaw (lib.set h t s) name = lib.getRaw h name

/-- `extend` replaces the lines of every name that it is given. -/
structure Extends : Prop where
  new : ∀ name, lib.getRaw lib.new name = none
  extend : ∀ h h' name,
    lib.getRaw (lib.extend h h') name = (lib.getRaw h' name).or (lib.getRaw h name)

/-- `Connection` is read as the options of all its lines, if all of them are text. -/
def ReadsConnection : Prop := ∀ h, lib.Received h →
  lib.getConnection h =
    if lib.Has h "Connection" ∧ lib.Readable h "Connection" then
      some ((textsOf (lib.linesOf h "Connection")).map ConnectionOption.fromStr)
    else none

/-- A header that is declared as `[String]` is read if it has one line, which is text and not
empty; and no line of a received header has a line break in it. -/
structure ReadsVia : Prop where
  read : ∀ h, lib.Received h → lib.getVia h =
    match lib.getRaw h "Via" with
    | some [line] => if line.size = 0 then none else (String.fromUTF8? line).map trimText
    | _ => none
  oneLine : ∀ h, lib.Received h → ∀ line ∈ lib.linesOf h "Via", ∀ s ∈ String.fromUTF8? line,
    OneLine s

structure Lawful : Prop where
  removes : lib.Removes
  sets : lib.Sets
  extend : lib.Extends
  readsConnection : lib.ReadsConnection
  readsVia : lib.ReadsVia

end HyperHeaders

section Text

@[simp] theorem fromUTF8?_toUTF8 (s : String) : String.fromUTF8? s.toUTF8 = some s :=
  dif_pos s.isValidUTF8

theorem entries_of_text {line : ByteArray} {s : String} (h : String.fromUTF8? line = some s) :
    entries line = (commaSeparated s).map String.toUTF8 := by
  rw [entries, h]

theorem entries_toUTF8 (s : String) : entries s.toUTF8 = (commaSeparated s).map String.toUTF8 :=
  entries_of_text (fromUTF8?_toUTF8 s)

theorem entries_texts {lines : List ByteArray}
    (h : ∀ line ∈ lines, (String.fromUTF8? line).isSome) :
    lines.flatMap entries = (textsOf lines).map String.toUTF8 := by
  induction lines with
  | nil => rfl
  | cons line lines ih =>
    obtain ⟨hline, hlines⟩ := List.forall_mem_cons.mp h
    obtain ⟨s, hs⟩ := Option.isSome_iff_exists.mp hline
    rw [List.flatMap_cons, ih hlines, entries_of_text hs, textsOf, textsOf,
      List.filterMap_cons_some hs, List.flatMap_cons, List.map_append]

theorem commaSeparated_append (a b : String) :
    commaSeparated (a ++ "," ++ b) = commaSeparated a ++ commaSeparated b := by
  have hsplit : (a ++ "," ++ b).toList = a.toList ++ ',' :: b.toList := by
    simp [String.toList_append]
  rw [commaSeparated, hsplit, items_append _ _ (by decide), List.map_append]
  rfl

theorem not_comma_of_room (c : Char) (hc : isWhitespace c = true) : decide (c = ',') = false := by
  by_contra hcomma
  obtain rfl : c = ',' := by simpa using hcomma
  exact absurd hc (by decide)

theorem commaSeparated_trimText (s : String) : commaSeparated (trimText s) = commaSeparated s := by
  rw [commaSeparated, trimText, String.toList_ofList, items_trim not_comma_of_room, commaSeparated]

theorem commaSeparated_room (s : String) : commaSeparated (" " ++ s) = commaSeparated s := by
  rw [commaSeparated, String.toList_append]
  exact congrArg (List.map String.ofList) (items_cons_blank _ rfl rfl)

theorem OneLine.append {a b : String} (ha : OneLine a) (hb : OneLine b) : OneLine (a ++ b) := by
  simp only [OneLine, String.toList_append, List.mem_append, not_or]
  exact ⟨⟨ha.1, hb.1⟩, ha.2, hb.2⟩

theorem OneLine.trimText {s : String} (h : OneLine s) : OneLine (trimText s) := by
  have hsub : ∀ c ∈ (HttpHeaders.trimText s).toList, c ∈ s.toList := by
    intro c hc
    rw [HttpHeaders.trimText, String.toList_ofList, trim] at hc
    exact (List.dropWhile_sublist _).subset ((List.rdropWhile_prefix _ _).subset hc)
  exact ⟨fun hc => h.1 (hsub _ hc), fun hc => h.2 (hsub _ hc)⟩

def ConnectionOption.headerName : ConnectionOption → String
  | .close => "Close"
  | .keepAlive => "Keep-Alive"
  | .connectionHeader name => name

theorem fold_headerName (s : String) :
    foldName (ConnectionOption.fromStr s).headerName = foldName s := by
  unfold ConnectionOption.fromStr
  split
  · rename_i h
    rw [h]
    decide
  · split
    · rename_i h
      rw [h]
      decide
    · rfl

end Text

section Laws

variable {Headers : Type} {lib : HyperHeaders Headers} {h : Headers}

theorem has_iff_of_getRaw {h' : Headers} {name : String} {p : Prop} [Decidable p]
    (hget : lib.getRaw h' name = if p then none else lib.getRaw h name) :
    lib.Has h' name ↔ lib.Has h name ∧ ¬ p := by
  rw [HyperHeaders.Has, hget, HyperHeaders.Has]
  by_cases hp : p <;> simp [hp]

/-- The names that the options of `Connection` stand for: those that it names if it is text,
and none if it is not. -/
theorem mem_options_iff (hconnection : lib.ReadsConnection) (hr : lib.Received h) {name : String} :
    (∃ o ∈ (lib.getConnection h).getD [], foldName o.headerName = foldName name) ↔
      lib.Readable h "Connection" ∧ lib.NamedByConnection h name := by
  rw [hconnection h hr]
  by_cases hread : lib.Readable h "Connection"
  · have hentries := entries_texts hread
    by_cases hhas : lib.Has h "Connection"
    · rw [if_pos ⟨hhas, hread⟩, HyperHeaders.NamedByConnection, HyperHeaders.entriesOf, hentries]
      simp only [Option.getD_some, List.mem_map, exists_exists_and_eq_and, fold_headerName, hread,
        true_and]
      exact Iff.rfl
    · have hnone : lib.linesOf h "Connection" = [] := by
        rw [HyperHeaders.linesOf, Option.not_isSome_iff_eq_none.mp hhas]
        rfl
      simp [hhas, HyperHeaders.NamedByConnection, HyperHeaders.entriesOf, hnone]
  · simp [hread]

end Laws

section Instance

abbrev FieldMap := FoldedMap String (List ByteArray) foldName

def FieldMap.OneLined (h : FieldMap) : Prop :=
  ∀ e ∈ h.entries, ∀ line ∈ e.2, ∀ s ∈ String.fromUTF8? line, OneLine s

instance (h : FieldMap) : Decidable h.OneLined :=
  inferInstanceAs (Decidable
    (∀ e ∈ h.entries, ∀ line ∈ e.2, ∀ s ∈ String.fromUTF8? line, OneLine s))

def FieldMap.ofText (fields : List (String × List String)) : FieldMap :=
  fields.foldl (fun h field => h.insert field.1 (field.2.map String.toUTF8)) .empty

def fieldMap : HyperHeaders FieldMap where
  new := .empty
  getRaw h name := h.get name
  getConnection h := (h.get "Connection").bind fun lines =>
    if ∀ line ∈ lines, (String.fromUTF8? line).isSome then
      some ((textsOf lines).map ConnectionOption.fromStr)
    else none
  getVia h := match h.get "Via" with
    | some [line] => if line.size = 0 then none else (String.fromUTF8? line).map trimText
    | _ => none
  removeRaw h name := h.remove name
  remove h t := h.remove t.headerName
  set h t s := h.insert t.headerName [s.toUTF8]
  extend h h' := h.extend h'
  Received := FieldMap.OneLined

theorem fieldMap_removes : fieldMap.Removes where
  raw h name name' := h.get_remove name name'
  typed h t name' := h.get_remove t.headerName name'

theorem fieldMap_sets : fieldMap.Sets where
  same h _ _ _ _ he := (h.get_insert _ _ _).trans (if_pos he)
  other h _ _ _ hne := (h.get_insert _ _ _).trans (if_neg hne)

theorem fieldMap_extends : fieldMap.Extends where
  new _ := rfl
  extend h h' name := h.get_extend h' name

theorem fieldMap_readsConnection : fieldMap.ReadsConnection := by
  intro h _
  cases hget : h.get "Connection" <;>
    simp [HyperHeaders.Has, HyperHeaders.Readable, HyperHeaders.linesOf, fieldMap, hget]

theorem fieldMap_readsVia : fieldMap.ReadsVia where
  read _ _ := rfl
  oneLine h hr line hline s hs := by
    cases hget : h.get "Via" with
    | none => simp [HyperHeaders.linesOf, fieldMap, hget] at hline
    | some lines =>
      simp only [HyperHeaders.linesOf, fieldMap, hget, Option.getD_some] at hline
      obtain ⟨e, he, rfl⟩ := Option.map_eq_some_iff.mp hget
      exact hr e (List.mem_of_find?_eq_some he) line hline s hs

theorem fieldMap_lawful : fieldMap.Lawful where
  removes := fieldMap_removes
  sets := fieldMap_sets
  extend := fieldMap_extends
  readsConnection := fieldMap_readsConnection
  readsVia := fieldMap_readsVia

end Instance

end HttpHeaders
