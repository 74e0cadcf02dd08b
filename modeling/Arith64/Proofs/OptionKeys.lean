import Mathlib.Data.List.Nodup
import Arith64.Case.OptionsText
import Arith64.Proofs.JsonReading

/-!
# Options from any text

The options are read from an object that gives some of them by their keys, in
any order, or from a list that gives the first of them. What is not given has
its default. A key that is not known or comes twice is refused wherever it
stands, and so is a number in any other notation than that of its digits.
-/

namespace Arith64

open Json (Document Numeral)

namespace CaseOptions

/-! ## Keys -/

inductive Key where
  | maxDepth
  | range
  | faultPolicy
  | maxAttempts
  deriving DecidableEq

namespace Key

def name : Key → String
  | maxDepth => "max_depth"
  | range => "range"
  | faultPolicy => "fault_policy"
  | maxAttempts => "max_attempts"

/-- The keys in the order of declaration. -/
def all : List Key := [maxDepth, range, faultPolicy, maxAttempts]

/-- Whether the value is a number. -/
def isNumber : Key → Bool
  | maxDepth | maxAttempts => true
  | range | faultPolicy => false

end Key

/-- The value of a key, as JSON. -/
def value (o : CaseOptions) : Key → Document
  | .maxDepth => .number { whole := o.maxDepth.toNat }
  | .range => .text o.range.name
  | .faultPolicy => .text o.faultPolicy.name
  | .maxAttempts => .number { whole := o.maxAttempts.toNat }

/-- The members that give the values of some keys. -/
def members (o : CaseOptions) (keys : List Key) : List (String × Document) :=
  keys.map fun key => (key.name, o.value key)

/-- Other options with the values of some keys in place of theirs. -/
def overlay (o base : CaseOptions) (keys : List Key) : CaseOptions where
  maxDepth := if .maxDepth ∈ keys then o.maxDepth else base.maxDepth
  range := if .range ∈ keys then o.range else base.range
  faultPolicy := if .faultPolicy ∈ keys then o.faultPolicy else base.faultPolicy
  maxAttempts := if .maxAttempts ∈ keys then o.maxAttempts else base.maxAttempts

variable {o base : CaseOptions} {key : Key} {keys : List Key}

theorem overlay_cons : o.overlay base (key :: keys) = o.overlay (o.overlay base [key]) keys := by
  cases key <;> simp [overlay]

theorem overlay_all : o.overlay base Key.all = o := rfl

/-! ## Fields -/

/-- The value of a key that is read. -/
def setting (o : CaseOptions) : Key → Json
  | .maxDepth => .natural o.maxDepth.toNat
  | .range => .text o.range.name
  | .faultPolicy => .text o.faultPolicy.name
  | .maxAttempts => .natural o.maxAttempts.toNat

theorem setting?_value : (o.value key).setting? = some (o.setting key) := by
  cases key <;> rfl

theorem word32?_toNat (n : UInt32) : Json.word32? (.natural n.toNat) = some n := by
  simp [Json.word32?, n.toNat_lt_size]

theorem ofJson?_range (range : LiteralRange) :
    LiteralRange.ofJson? (.text range.name) = some range := by
  cases range <;> rfl

theorem ofJson?_faultPolicy (policy : FaultPolicy) :
    FaultPolicy.ofJson? (.text policy.name) = some policy := by
  cases policy <;> rfl

theorem putMember_setting :
    Json.putMember fields base (key.name, o.setting key) = some (o.overlay base [key]) := by
  cases key <;>
    simp [Json.putMember, fields, Key.name, setting, word32?_toNat, ofJson?_range,
      ofJson?_faultPolicy, overlay]

theorem foldlM_putMember :
    (keys.map fun key => (key.name, o.setting key)).foldlM (Json.putMember fields) base =
      some (o.overlay base keys) := by
  induction keys generalizing base with
  | nil => rfl
  | cons key keys ih =>
    rw [List.map_cons, List.foldlM_cons, putMember_setting]
    exact ih.trans (congrArg some overlay_cons.symm)

theorem putInOrder_setting (k : Nat) :
    Json.putInOrder fields ((Key.all.take k).map o.setting) base =
      some (o.overlay base (Key.all.take k)) := by
  match k with
  | 0 | 1 | 2 | 3 | k + 4 =>
    simp [Key.all, fields, Json.putInOrder, setting, word32?_toNat, ofJson?_range,
      ofJson?_faultPolicy, overlay]

theorem memberSettings?_members : Json.memberSettings? (o.members keys) =
    some (keys.map fun key => (key.name, o.setting key)) := by
  induction keys with
  | nil => rfl
  | cons key keys ih =>
    rw [members] at ih ⊢
    rw [List.map_cons, Json.memberSettings?, setting?_value, ih]
    rfl

theorem settings?_values :
    Json.settings? (keys.map o.value) = some (keys.map o.setting) := by
  induction keys with
  | nil => rfl
  | cons key keys ih =>
    rw [List.map_cons, Json.settings?, setting?_value, ih]
    rfl

theorem name_injective : Function.Injective Key.name := by
  intro a b
  cases a <;> cases b <;> decide

/-! ## Texts that are read -/

variable {text : String}

theorem ofText?_object (hkeys : keys.Nodup) (h : (Document.object (o.members keys)).Writes text) :
    ofText? text = some (o.overlay {} keys) := by
  rw [ofText?, Json.parse?_of_writes h, Document.setting?, memberSettings?_members]
  have hnames : ((keys.map fun key => (key.name, o.setting key)).map Prod.fst).Nodup := by
    rw [List.map_map]
    exact hkeys.map name_injective
  rw [Option.map_some, Option.bind_some, ofJson?, Json.record?, if_pos hnames, foldlM_putMember]

theorem ofText?_list {k : Nat}
    (h : (Document.list ((Key.all.take k).map o.value)).Writes text) :
    ofText? text = some (o.overlay {} (Key.all.take k)) := by
  rw [ofText?, Json.parse?_of_writes h, Document.setting?, settings?_values, Option.map_some,
    Option.bind_some, ofJson?, Json.record?, putInOrder_setting]

theorem writes_text : (Document.object (o.members Key.all)).Writes o.text := by
  have hpieces : (Document.object (o.members Key.all)).pieces =
      [.mark .openBrace, .text "max_depth", .mark .colon, .number { whole := o.maxDepth.toNat },
        .mark .comma, .text "range", .mark .colon, .text o.range.name,
        .mark .comma, .text "fault_policy", .mark .colon, .text o.faultPolicy.name,
        .mark .comma, .text "max_attempts", .mark .colon,
        .number { whole := o.maxAttempts.toNat }, .mark .closeBrace] := rfl
  have htext : o.text = "\x7b\"max_depth\":" ++ decimal o.maxDepth.toNat ++
      ",\"range\":\"" ++ o.range.name ++ "\",\"fault_policy\":\"" ++ o.faultPolicy.name ++
      "\",\"max_attempts\":" ++ decimal o.maxAttempts.toNat ++ "\x7d" := rfl
  have hcompact : o.text.toList =
      (Document.object (o.members Key.all)).pieces.flatMap Json.Piece.compact := by
    rw [htext, hpieces]
    simp [Json.Piece.compact, Json.Mark.char, Numeral.chars, Numeral.tail]
  have hrange : ∀ c ∈ o.range.name.toList, ' ' ≤ c ∧ c ≠ '"' ∧ c ≠ '\\' := by
    cases o.range <;> simp [LiteralRange.name]
  have hpolicy : ∀ c ∈ o.faultPolicy.name.toList, ' ' ≤ c ∧ c ≠ '"' ∧ c ≠ '\\' := by
    cases o.faultPolicy <;> simp [FaultPolicy.name]
  refine Document.writes_compact ?_ hcompact
  simpa [hpieces, Json.Piece.IsPlain] using ⟨hrange, hpolicy⟩

/-! ## Texts that are refused -/

section Refused

variable {ms : List (String × Document)} {vs : List (String × Json)} {name : String} {d : Document}

theorem keys_memberSettings? (h : Json.memberSettings? ms = some vs) :
    vs.map Prod.fst = ms.map Prod.fst := by
  induction ms generalizing vs with
  | nil =>
    cases h
    rfl
  | cons m ms ih =>
    obtain ⟨v, -, hms⟩ := Option.bind_eq_some_iff.mp h
    obtain ⟨vs, hvs, rfl⟩ := Option.map_eq_some_iff.mp hms
    rw [List.map_cons, List.map_cons, ih hvs]

theorem exists_of_memberSettings? (h : Json.memberSettings? ms = some vs) (hm : (name, d) ∈ ms) :
    ∃ v, d.setting? = some v ∧ (name, v) ∈ vs := by
  induction ms generalizing vs with
  | nil => cases hm
  | cons m ms ih =>
    obtain ⟨v, hv, hms⟩ := Option.bind_eq_some_iff.mp h
    obtain ⟨vs, hvs, rfl⟩ := Option.map_eq_some_iff.mp hms
    cases hm with
    | head => exact ⟨v, hv, List.mem_cons_self⟩
    | tail _ hm =>
      obtain ⟨v, hv, hmem⟩ := ih hvs hm
      exact ⟨v, hv, List.mem_cons_of_mem _ hmem⟩

theorem foldlM_eq_none {α β : Type} {f : α → β → Option α} {b : β} {bs : List β} {a : α}
    (hb : b ∈ bs) (h : ∀ a, f a b = none) : bs.foldlM f a = none := by
  induction bs generalizing a with
  | nil => cases hb
  | cons c bs ih =>
    rw [List.foldlM_cons]
    cases hb with
    | head =>
      rw [h a]
      rfl
    | tail _ hb =>
      cases f a c with
      | none => rfl
      | some a => exact ih hb

theorem ofText?_eq_none (h : (Document.object ms).Writes text)
    (hms : ∀ vs, Json.memberSettings? ms = some vs → ¬(vs.map Prod.fst).Nodup ∨
      vs.foldlM (Json.putMember fields) {} = none) : ofText? text = none := by
  rw [ofText?, Json.parse?_of_writes h, Document.setting?]
  cases hvs : Json.memberSettings? ms with
  | none => rfl
  | some vs =>
    rw [Option.map_some, Option.bind_some, ofJson?, Json.record?]
    split
    · exact (hms vs hvs).resolve_left (not_not_intro ‹_›)
    · rfl

theorem ofText?_repeated (h : (Document.object ms).Writes text) (hms : ¬(ms.map Prod.fst).Nodup) :
    ofText? text = none := by
  refine ofText?_eq_none h fun vs hvs => .inl ?_
  rwa [keys_memberSettings? hvs]

theorem ofText?_refused (h : (Document.object ms).Writes text) (hm : (name, d) ∈ ms)
    (hput : ∀ v, d.setting? = some v → ∀ base, Json.putMember fields base (name, v) = none) :
    ofText? text = none := by
  refine ofText?_eq_none h fun vs hvs => .inr ?_
  obtain ⟨v, hv, hmem⟩ := exists_of_memberSettings? hvs hm
  exact foldlM_eq_none hmem (hput v hv)

theorem putMember_unknown {v : Json} (h : name ∉ Key.all.map Key.name) :
    Json.putMember fields base (name, v) = none := by
  have hfields : fields.find? (fun field => field.key == name) = none := by
    rw [List.find?_eq_none]
    intro field hfield hname
    have hkey : field.key ∈ Key.all.map Key.name := List.mem_map_of_mem (f := Json.Field.key) hfield
    exact h (beq_iff_eq.mp hname ▸ hkey)
  rw [Json.putMember, hfields]
  rfl

theorem word32?_eq_none {n : Numeral} {v : Json}
    (hn : n.negative = true ∨ n.fraction.isSome ∨ n.exponent.isSome ∨ UInt32.size ≤ n.whole)
    (hv : (Document.number n).setting? = some v) : Json.word32? v = none := by
  obtain ⟨m, hm, rfl⟩ := Option.map_eq_some_iff.mp hv
  unfold Numeral.natural? at hm
  split at hm
  · cases hm
    have hwhole : ¬m < UInt32.size := by simpa using hn
    rw [Json.word32?, if_neg hwhole]
  · cases hm

theorem putMember_number {n : Numeral} {v : Json} (hkey : key.isNumber = true)
    (hn : n.negative = true ∨ n.fraction.isSome ∨ n.exponent.isSome ∨ UInt32.size ≤ n.whole)
    (hv : (Document.number n).setting? = some v) :
    Json.putMember fields base (key.name, v) = none := by
  have hword := word32?_eq_none hn hv
  cases key with
  | maxDepth | maxAttempts => simp [Json.putMember, fields, Key.name, hword]
  | range | faultPolicy => cases hkey

theorem ofText?_inserted {before after : List (String × Document)}
    (hms : before ++ after = o.members keys)
    (hname : name ∈ keys.map Key.name ∨ name ∉ Key.all.map Key.name)
    (h : (Document.object (before ++ (name, d) :: after)).Writes text) : ofText? text = none := by
  rcases hname with hname | hname
  · refine ofText?_repeated h ?_
    have hkeys : (before ++ after).map Prod.fst = keys.map Key.name := by
      rw [hms, members, List.map_map]
      rfl
    rw [List.map_append, List.map_cons, List.nodup_middle, ← List.map_append, hkeys]
    exact fun hnodup => (List.nodup_cons.mp hnodup).1 hname
  · refine ofText?_refused h (List.mem_append_right _ List.mem_cons_self) ?_
    exact fun v _ base => putMember_unknown hname

end Refused

/-- A text gives the options that stand in it, in any order, and the rest are the defaults. With a
member that may not be there, or a number that is no word, it gives none. -/
theorem reads_given_keys (o : CaseOptions) {keys : List Key} (hkeys : keys.Nodup) :
    (∀ text, (Document.object (o.members keys)).Writes text →
        ofText? text = some (o.overlay {} keys)) ∧
      ofText? o.text = some o ∧
      (∀ k text text', (Document.list ((Key.all.take k).map o.value)).Writes text →
        (Document.object (o.members (Key.all.take k))).Writes text' →
          ofText? text = ofText? text' ∧ ofText? text = some (o.overlay {} (Key.all.take k))) ∧
      (∀ before after name d text, before ++ after = o.members keys →
        name ∈ keys.map Key.name ∨ name ∉ Key.all.map Key.name →
          (Document.object (before ++ (name, d) :: after)).Writes text → ofText? text = none) ∧
      ∀ before after (key : Key) (n : Numeral) text,
        before ++ (key.name, o.value key) :: after = o.members keys → key.isNumber = true →
          n.negative = true ∨ n.fraction.isSome ∨ n.exponent.isSome ∨ UInt32.size ≤ n.whole →
            (Document.object (before ++ (key.name, .number n) :: after)).Writes text →
              ofText? text = none := by
  have hall : Key.all.Nodup := by decide
  refine ⟨fun text => ofText?_object hkeys, ?_, ?_, ?_, ?_⟩
  · rw [ofText?_object hall writes_text, overlay_all]
  · intro k text text' hlist hobject
    have htake : (Key.all.take k).Nodup := hall.sublist (List.take_sublist k _)
    rw [ofText?_list hlist, ofText?_object htake hobject]
    exact ⟨rfl, rfl⟩
  · intro before after name d text hms hname
    exact ofText?_inserted hms hname
  · intro before after key n text _ hkey hn h
    exact ofText?_refused h (List.mem_append_right _ List.mem_cons_self)
      fun v hv base => putMember_number hkey hn hv

theorem reads_two_keys :
    ofText? "\x7b \"max_attempts\": 0,\n\"range\" :\"small\"\t\x7d" =
        some { range := .small, maxAttempts := 0 } ∧
      ofText? "\x7b\"range\":null,\"max_attempts\":0,\"range\":\"small\"\x7d" = none := by
  let o : CaseOptions := { maxDepth := 5, range := .small, faultPolicy := .fail, maxAttempts := 0 }
  let keys : List Key := [.maxAttempts, .range]
  have hkeys : keys.Nodup := by decide
  obtain ⟨hread, -, -, hinserted, -⟩ := reads_given_keys o hkeys
  constructor
  · have htext : "\x7b \"max_attempts\": 0,\n\"range\" :\"small\"\t\x7d".toList =
        [] ++ ['\x7b'] ++ ([' '] ++ ('"' :: "max_attempts".toList ++ ['"']) ++ ([] ++ [':'] ++
          ([' '] ++ ['0'] ++ ([] ++ [','] ++ (['\n'] ++ ('"' :: "range".toList ++ ['"']) ++
            ([' '] ++ [':'] ++ ([] ++ ('"' :: "small".toList ++ ['"']) ++
              (['\t'] ++ ['\x7d'] ++ [])))))))) := by
      decide
    refine hread _ ?_
    change Json.Written [.mark .openBrace, .text "max_attempts", .mark .colon,
      .number { whole := 0 }, .mark .comma, .text "range", .mark .colon, .text "small",
      .mark .closeBrace] _
    rw [htext]
    refine .cons (by decide) (.mark .openBrace) ?_
    refine .cons (by decide) (.text (Json.quoted_self (by simp))) ?_
    refine .cons (by decide) (.mark .colon) ?_
    refine .cons (by decide) (.number { whole := 0 }) ?_
    refine .cons (by decide) (.mark .comma) ?_
    refine .cons (by decide) (.text (Json.quoted_self (by simp))) ?_
    refine .cons (by decide) (.mark .colon) ?_
    refine .cons (by decide) (.text (Json.quoted_self (by simp))) ?_
    exact .cons (by decide) (.mark .closeBrace) (.nil (by decide))
  · refine hinserted [] (o.members keys) "range" .null _ rfl (.inl (by decide)) ?_
    refine Document.writes_compact ?_ (by decide)
    simp [keys, o, members, value, Key.name, LiteralRange.name, Document.pieces,
      Json.memberPieces, Json.Piece.IsPlain]

end CaseOptions

end Arith64
