import Mathlib.Data.List.TakeDrop
import Mathlib.Data.List.TakeWhile
import Mathlib.Data.Nat.Init

/-! `hyper::Uri` as the crate uses it. It is a parameter, and what is relied on of it is one law
for each form of text. Nothing is said of absolute text whose scheme or authority is not well
formed: where `hyper` cuts it is its own affair. -/
namespace RequestTargets

/-- `Uri::from_str`, `Display` and `AsRef<str>`, as far as the crate relies on them. -/
structure UriText (Uri : Type) where
  fromStr : String → Option Uri
  display : Uri → String
  asRef : Uri → String

/-- Parsing the printed form of a `Uri` gives an equal `Uri`. -/
def UriText.RoundTrip {Uri : Type} (hyper : UriText Uri) : Prop :=
  ∀ url, hyper.fromStr (hyper.display url) = some url

def plainText : UriText String := { fromStr := some, display := id, asRef := id }

/-- The accessors of a `Uri`, and `Display` of `header::Host`. -/
structure HyperUri (Uri : Type) extends UriText Uri where
  scheme : Uri → Option String
  authority : Uri → Option String
  path : Uri → String
  query : Uri → Option String
  host : Uri → Option String
  port : Uri → Option ℕ
  displayHost : String → Option ℕ → String

def StartsWithSlash (s : String) : Prop := s.toList.head? = some '/'

def Delimited (s : String) : Prop := ∀ c ∈ s.toList.head?, c = '/' ∨ c = '?' ∨ c = '#'

def Plain (s : String) : Prop := '?' ∉ s.toList ∧ '#' ∉ s.toList

structure WellFormed (scheme authority : String) : Prop where
  scheme_ne : scheme ≠ ""
  scheme_chars : ∀ c ∈ scheme.toList, c ≠ ':' ∧ c ≠ '/' ∧ c ≠ '?' ∧ c ≠ '#'
  authority_ne : authority ≠ ""
  authority_chars : ∀ c ∈ authority.toList, c ≠ '/' ∧ c ≠ '?' ∧ c ≠ '#'

/-- How a port is written behind a host; those of `http` and `https` are not. -/
def portText : Option ℕ → String
  | none | some 80 | some 443 => ""
  | some port => ":" ++ toString port

namespace HyperUri

variable {Uri : Type} (hyper : HyperUri Uri)

/-- A `Uri` prints as the text that it was parsed from. -/
def Prints : Prop := ∀ {s u}, hyper.fromStr s = some u → hyper.display u = s

/-- `u` was parsed from absolute text, with `rest` behind its authority. -/
structure AbsoluteForm (scheme authority rest : String) (u : Uri) : Prop where
  wellFormed : WellFormed scheme authority
  delimited : Delimited rest
  parsed : hyper.fromStr (scheme ++ "://" ++ authority ++ rest) = some u

def Absolute (u : Uri) : Prop :=
  ∃ scheme authority rest, hyper.AbsoluteForm scheme authority rest u

/-- A well-formed scheme and authority are read off, whatever stands behind them, and then there
is a host. -/
def ReadsAbsolute : Prop := ∀ {scheme authority rest}, WellFormed scheme authority →
  Delimited rest → ∃ u, hyper.fromStr (scheme ++ "://" ++ authority ++ rest) = some u ∧
    hyper.scheme u = some scheme ∧ hyper.authority u = some authority ∧ (hyper.host u).isSome

/-- The query of an absolute text begins at the first question mark. -/
def SplitsAbsolute : Prop := ∀ {scheme authority path query u}, WellFormed scheme authority →
  StartsWithSlash path → Plain path → '#' ∉ query.toList →
  hyper.fromStr (scheme ++ "://" ++ authority ++ path ++ "?" ++ query) = some u →
    hyper.path u = path ∧ hyper.query u = some query

/-- Host and port of a well-formed absolute text are those of its authority. -/
def HostOfAuthority : Prop := ∀ {scheme authority rest rest' u v},
  hyper.AbsoluteForm scheme authority rest u → hyper.AbsoluteForm scheme authority rest' v →
    hyper.host v = hyper.host u ∧ hyper.port v = hyper.port u

def DisplaysHost : Prop := ∀ host port, hyper.displayHost host port = host ++ portText port

/-- The query of a text in origin form begins at the first question mark. -/
def SplitsOrigin : Prop := ∀ {path query u}, StartsWithSlash path → Plain path →
  (∀ q ∈ query, '#' ∉ q.toList) →
  hyper.fromStr (path ++ (query.elim "" fun q => "?" ++ q)) = some u →
    hyper.path u = path ∧ hyper.query u = query

/-- The path of any text that is accepted; an authority has none, and the asterisk is its own. -/
def TargetPaths : Prop := ∀ {s u}, hyper.fromStr s = some u →
  StartsWithSlash (hyper.path u) ∨ hyper.path u = "" ∨ hyper.path u = "*"

/-- The forms of text without a scheme. The root is accepted; text in origin form has no host;
other text that is accepted has no slash, and other text with a slash is only accepted for a
`://` in it. -/
structure ReadsRelative : Prop where
  root : (hyper.fromStr "/").isSome
  origin : ∀ {s u}, StartsWithSlash s → hyper.fromStr s = some u → hyper.host u = none
  schemeless : ∀ {s u}, hyper.fromStr s = some u → hyper.scheme u = none →
    StartsWithSlash s ∨ '/' ∉ s.toList
  rejects : ∀ {s}, ¬ StartsWithSlash s → '/' ∈ s.toList → ¬ "://".toList <:+: s.toList →
    hyper.fromStr s = none

end HyperUri

end RequestTargets

/-! A `Uri` as its source text with its parts, cut as `Uri::from_str` cuts ASCII text. Of absolute
text only such with a well-formed scheme is accepted here; the real function takes more, and
cuts it elsewhere. -/
namespace SourceText

open RequestTargets

/-- The parts of a source text: `tail` is the path with all that follows it. -/
structure Parts where
  scheme : Option (List Char)
  authority : Option (List Char)
  tail : List Char
  deriving DecidableEq, Repr

def ofScheme (c : Char) : Bool := c ∉ [':', '/', '?', '#']
def ofAuthority (c : Char) : Bool := c ∉ ['/', '?', '#']
def ofPath (c : Char) : Bool := c ∉ ['?', '#']

@[simp] theorem ofScheme_eq_true {c : Char} :
    ofScheme c = true ↔ c ≠ ':' ∧ c ≠ '/' ∧ c ≠ '?' ∧ c ≠ '#' := by
  simp [ofScheme]

@[simp] theorem ofAuthority_eq_true {c : Char} :
    ofAuthority c = true ↔ c ≠ '/' ∧ c ≠ '?' ∧ c ≠ '#' := by
  simp [ofAuthority]

@[simp] theorem ofAuthority_eq_false {c : Char} :
    ofAuthority c = false ↔ c = '/' ∨ c = '?' ∨ c = '#' := by
  simp [ofAuthority, ← or_iff_not_imp_left]

@[simp] theorem ofPath_eq_true {c : Char} : ofPath c = true ↔ c ≠ '?' ∧ c ≠ '#' := by
  simp [ofPath]

def Parts.path (p : Parts) : List Char :=
  match p.scheme, p.tail.takeWhile ofPath with
  | some _, [] => ['/']
  | _, path => path

def Parts.query (p : Parts) : Option (List Char) :=
  match p.tail.dropWhile ofPath with
  | '?' :: l => some (l.takeWhile (· ≠ '#'))
  | _ => none

/-- `u16::from_str`, which takes a plus sign in front. -/
def u16FromStr (l : List Char) : Option ℕ :=
  let digits := if l.head? = some '+' then l.tail else l
  if digits ≠ [] ∧ digits.all Char.isDigit then
    let n := digits.foldl (fun n c => 10 * n + (c.toNat - '0'.toNat)) 0
    if n < UInt16.size then some n else none
  else none

def Parts.port (p : Parts) : Option ℕ :=
  match (p.authority.getD []).dropWhile (· ≠ ':') with
  | _ :: l => u16FromStr l
  | [] => none

def parse (s : List Char) : Option Parts :=
  if s = ['*'] ∨ s.head? = some '/' then some { scheme := none, authority := none, tail := s }
  else if "://".toList <+: s.dropWhile ofScheme then
    let scheme := s.takeWhile ofScheme
    let l := (s.dropWhile ofScheme).drop 3
    let authority := l.takeWhile ofAuthority
    if scheme = [] ∨ authority = [] then none
    else some {
      scheme := some scheme
      authority := some authority
      tail := l.dropWhile ofAuthority }
  else if s = [] ∨ '/' ∈ s ∨ '?' ∈ s then none
  else some { scheme := none, authority := some s, tail := [] }

structure SourceUri where
  source : String
  parts : Parts
  parsed : parse source.toList = some parts
  deriving DecidableEq, Repr

def SourceUri.fromStr (s : String) : Option SourceUri :=
  match h : parse s.toList with
  | some parts => some { source := s, parts := parts, parsed := h }
  | none => none

def sourceText : HyperUri SourceUri where
  fromStr := SourceUri.fromStr
  display := SourceUri.source
  asRef := SourceUri.source
  scheme u := u.parts.scheme.map String.ofList
  authority u := u.parts.authority.map String.ofList
  path u := String.ofList u.parts.path
  query u := u.parts.query.map String.ofList
  host u := u.parts.authority.map fun a => String.ofList (a.takeWhile (· ≠ ':'))
  port u := u.parts.port
  displayHost host port := host ++ portText port

theorem fromStr_eq_some {s : String} {u : SourceUri} (h : SourceUri.fromStr s = some u) :
    u.source = s := by
  unfold SourceUri.fromStr at h
  split at h
  · obtain rfl := Option.some.inj h
    rfl
  · cases h

theorem fromStr_parsed {s : String} {p : Parts} (h : parse s.toList = some p) :
    SourceUri.fromStr s = some { source := s, parts := p, parsed := h } := by
  unfold SourceUri.fromStr
  split
  · rename_i q hq
    obtain rfl := Option.some.inj (h.symm.trans hq)
    rfl
  · rename_i hq
    cases h.symm.trans hq

theorem fromStr_none {s : String} (h : parse s.toList = none) : SourceUri.fromStr s = none := by
  cases hu : SourceUri.fromStr s with
  | none => rfl
  | some u =>
    obtain rfl := fromStr_eq_some hu
    cases h.symm.trans u.parsed

/-- What parses is rooted, absolute or an authority. -/
theorem parse_cases {s : List Char} {p : Parts} (h : parse s = some p) :
    ((s = ['*'] ∨ s.head? = some '/') ∧ p = { scheme := none, authority := none, tail := s }) ∨
    (∃ scheme authority tail, p =
      { scheme := some scheme, authority := some authority, tail := tail } ∧
      ∀ c ∈ tail.head?, ofAuthority c = false) ∨
    ('/' ∉ s ∧ '?' ∉ s ∧ p = { scheme := none, authority := some s, tail := [] }) := by
  unfold parse at h
  split at h
  · rename_i hs
    exact Or.inl ⟨hs, (Option.some.inj h).symm⟩
  · split at h
    · simp only at h
      split at h
      · cases h
      · refine Or.inr (Or.inl ⟨_, _, _, (Option.some.inj h).symm, ?_⟩)
        intro c hc
        have hnot := List.head?_dropWhile_not ofAuthority ((s.dropWhile ofScheme).drop 3)
        rw [hc] at hnot
        exact hnot
    · split at h
      · cases h
      · rename_i hok
        obtain ⟨-, hslash, hquery⟩ := not_or.mp hok |>.imp_right not_or.mp
        exact Or.inr (Or.inr ⟨hslash, hquery, (Option.some.inj h).symm⟩)

theorem cut_append {p : Char → Bool} {a : List Char} (rest : List Char) (ha : ∀ c ∈ a, p c = true)
    (hrest : ∀ c ∈ rest.head?, p c = false) :
    (a ++ rest).takeWhile p = a ∧ (a ++ rest).dropWhile p = rest := by
  rw [List.takeWhile_append_of_pos ha, List.dropWhile_append_of_pos ha]
  cases rest with
  | nil => simp
  | cons c rest =>
    have hc : p c = false := hrest c rfl
    simp [hc]

theorem parse_absolute {scheme authority rest : String} (hwf : WellFormed scheme authority)
    (hrest : Delimited rest) :
    parse (scheme ++ "://" ++ authority ++ rest).toList = some {
      scheme := some scheme.toList
      authority := some authority.toList
      tail := rest.toList } := by
  obtain ⟨hne, hscheme, hane, hauthority⟩ := hwf
  have htext : (scheme ++ "://" ++ authority ++ rest).toList =
      scheme.toList ++ ("://".toList ++ (authority.toList ++ rest.toList)) := by
    simp [String.toList_append]
  obtain ⟨htake, hdrop⟩ := cut_append ("://".toList ++ (authority.toList ++ rest.toList))
    (fun c hc => ofScheme_eq_true.mpr (hscheme c hc)) (by simp [ofScheme])
  obtain ⟨htake', hdrop'⟩ := cut_append rest.toList
    (fun c hc => ofAuthority_eq_true.mpr (hauthority c hc))
    (fun c hc => ofAuthority_eq_false.mpr (hrest c hc))
  have hne' : scheme.toList ≠ [] := fun h => hne (String.toList_inj.mp h)
  have hane' : authority.toList ≠ [] := fun h => hane (String.toList_inj.mp h)
  have hbehind : ("://".toList ++ (authority.toList ++ rest.toList)).drop 3 =
      authority.toList ++ rest.toList := rfl
  have hrooted : ¬ (scheme.toList ++ ("://".toList ++ (authority.toList ++ rest.toList)) = ['*'] ∨
      (scheme.toList ++ ("://".toList ++ (authority.toList ++ rest.toList))).head? = some '/') := by
    obtain ⟨c, l, hl⟩ := List.exists_cons_of_ne_nil hne'
    have hc := (hscheme c (hl ▸ List.mem_cons_self)).2.1
    simp [hl, hc]
  rw [htext, parse, if_neg hrooted, hdrop, if_pos (List.prefix_append _ _)]
  simp only [htake, hbehind, htake', hdrop']
  exact if_neg (not_or.mpr ⟨hne', hane'⟩)

theorem sourceText_prints : sourceText.Prints := fromStr_eq_some

theorem sourceText_roundTrip : sourceText.RoundTrip := fun u => fromStr_parsed u.parsed

theorem sourceText_readsAbsolute : sourceText.ReadsAbsolute := by
  intro scheme authority rest hwf hrest
  refine ⟨_, fromStr_parsed (parse_absolute hwf hrest), ?_, ?_, rfl⟩
  · exact congrArg some String.ofList_toList
  · exact congrArg some String.ofList_toList

theorem cut_tail (scheme authority : Option (List Char)) {path : String} {query : Option String}
    (hslash : StartsWithSlash path) (hpath : Plain path) (hquery : ∀ q ∈ query, '#' ∉ q.toList) :
    let p : Parts :=
      { scheme := scheme, authority := authority
        tail := path.toList ++ (query.elim [] fun q => '?' :: q.toList) }
    p.path = path.toList ∧ p.query = query.map String.toList := by
  intro p
  have hin : ∀ c ∈ path.toList, ofPath c = true := fun c hc =>
    ofPath_eq_true.mpr ⟨fun h => hpath.1 (h ▸ hc), fun h => hpath.2 (h ▸ hc)⟩
  have hout : ∀ c ∈ (query.elim [] fun q => '?' :: q.toList).head?, ofPath c = false := by
    cases query with
    | none => simp
    | some q =>
      intro c hc
      obtain rfl := Option.some.inj hc
      rfl
  obtain ⟨htake, hdrop⟩ := cut_append _ hin hout
  obtain ⟨t, ht⟩ := List.head?_eq_some_iff.mp hslash
  constructor
  · rw [Parts.path, htake, ht]
    cases scheme <;> rfl
  · rw [Parts.query, hdrop]
    cases query with
    | none => rfl
    | some q =>
      have hall : q.toList.takeWhile (· ≠ '#') = q.toList := by
        rw [List.takeWhile_eq_self_iff]
        intro c hc
        simp only [ne_eq, decide_eq_true_eq]
        rintro rfl
        exact hquery q rfl hc
      exact congrArg some hall

theorem sourceText_splitsOrigin : sourceText.SplitsOrigin := by
  intro path query u hslash hpath hquery h
  obtain ⟨source, parts, parsed⟩ := u
  obtain rfl := fromStr_eq_some h
  obtain ⟨t, ht⟩ := List.head?_eq_some_iff.mp hslash
  rw [parse, if_pos (Or.inr (by simp [String.toList_append, ht]))] at parsed
  obtain rfl := Option.some.inj parsed
  have htail : (path ++ (query.elim "" fun q => "?" ++ q)).toList =
      path.toList ++ (query.elim [] fun q => '?' :: q.toList) := by
    cases query <;> simp [String.toList_append]
  obtain ⟨hp, hq⟩ := cut_tail none none hslash hpath hquery
  rw [← htail] at hp hq
  constructor
  · simp only [sourceText, hp, String.ofList_toList]
  · simp only [sourceText, hq, Option.map_map]
    cases query <;> simp

theorem sourceText_splitsAbsolute : sourceText.SplitsAbsolute := by
  intro scheme authority path query u hwf hslash hpath hquery h
  have hrest : Delimited (path ++ "?" ++ query) := by
    obtain ⟨t, ht⟩ := List.head?_eq_some_iff.mp hslash
    simp [Delimited, String.toList_append, ht]
  have hparse := parse_absolute hwf hrest
  have htext : scheme ++ "://" ++ authority ++ (path ++ "?" ++ query) =
      scheme ++ "://" ++ authority ++ path ++ "?" ++ query := by
    simp only [String.append_assoc]
  obtain ⟨source, parts, parsed⟩ := u
  obtain rfl := fromStr_eq_some h
  obtain rfl := Option.some.inj (parsed.symm.trans (htext ▸ hparse))
  have htail : (path ++ "?" ++ query).toList = path.toList ++ '?' :: query.toList := by
    simp [String.toList_append]
  have hone : ∀ q ∈ some query, '#' ∉ q.toList := by simpa using hquery
  obtain ⟨hp, hq⟩ := cut_tail (some scheme.toList) (some authority.toList) hslash hpath hone
  simp only [sourceText, htail]
  exact ⟨(congrArg String.ofList hp).trans String.ofList_toList,
    (congrArg (Option.map String.ofList) hq).trans (by simp)⟩

theorem sourceText_hostOfAuthority : sourceText.HostOfAuthority := by
  intro scheme authority rest rest' u v hu hv
  have hparts : ∀ {rest : String} {u : SourceUri},
      sourceText.AbsoluteForm scheme authority rest u →
        u.parts.authority = some authority.toList := by
    intro rest u h
    have hparse := parse_absolute h.wellFormed h.delimited
    rw [← fromStr_eq_some h.parsed, u.parsed] at hparse
    rw [Option.some.inj hparse]
  simp only [sourceText, Parts.port, hparts hu, hparts hv, and_self]

theorem sourceText_targetPaths : sourceText.TargetPaths := by
  intro s u h
  obtain rfl := fromStr_eq_some h
  obtain ⟨source, parts, parsed⟩ := u
  rcases parse_cases parsed with ⟨hs, rfl⟩ | ⟨scheme, authority, tail, rfl, htail⟩ | ⟨-, -, rfl⟩
  · rcases hs with hs | hs
    · exact Or.inr (Or.inr (by simp [sourceText, Parts.path, hs, ofPath]))
    · obtain ⟨t, ht⟩ := List.head?_eq_some_iff.mp hs
      exact Or.inl (by simp [StartsWithSlash, sourceText, Parts.path, ht, ofPath])
  · left
    cases tail with
    | nil => simp [StartsWithSlash, sourceText, Parts.path]
    | cons c tail =>
      have hc : ofAuthority c = false := htail c rfl
      rcases ofAuthority_eq_false.mp hc with rfl | rfl | rfl <;>
        simp [StartsWithSlash, sourceText, Parts.path, ofPath]
  · exact Or.inr (Or.inl rfl)

theorem sourceText_readsRelative : sourceText.ReadsRelative where
  root := rfl
  origin := by
    intro s u hslash h
    obtain rfl := fromStr_eq_some h
    obtain ⟨source, parts, parsed⟩ := u
    have hrooted : source.toList = ['*'] ∨ source.toList.head? = some '/' := Or.inr hslash
    rw [parse, if_pos hrooted] at parsed
    obtain rfl := Option.some.inj parsed
    rfl
  schemeless := by
    intro s u h hscheme
    obtain rfl := fromStr_eq_some h
    obtain ⟨source, parts, parsed⟩ := u
    rcases parse_cases parsed with ⟨hs, rfl⟩ | ⟨scheme, authority, tail, rfl, -⟩ | ⟨hslash, -, rfl⟩
    · rcases hs with hs | hs
      · exact Or.inr (by simp [hs])
      · exact Or.inl hs
    · cases hscheme
    · exact Or.inr hslash
  rejects := by
    intro s hslash hmem hno
    apply fromStr_none
    have hstar : ¬ (s.toList = ['*'] ∨ s.toList.head? = some '/') := by
      rintro (h | h)
      · simp [h] at hmem
      · exact hslash h
    have hinfix : ¬ "://".toList <+: s.toList.dropWhile ofScheme := fun h =>
      hno (h.isInfix.trans (List.dropWhile_suffix _).isInfix)
    rw [parse, if_neg hstar, if_neg hinfix, if_pos (Or.inr (Or.inl hmem))]

example : (sourceText.fromStr "http://a:80/b?c#d").map sourceText.query = some (some "c") := by
  decide
example : (sourceText.fromStr "http://a:+81/b").map sourceText.port = some (some 81) := by decide
example : (sourceText.fromStr "/srv/foo?").map sourceText.host = some none := by decide

end SourceText
