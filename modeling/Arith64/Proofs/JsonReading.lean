import Arith64.Proofs.JsonTokens

/-!
# Reading any JSON

A document is read as the value that settings can make of it. One with a part
that no setting can hold is refused, wherever this part stands.
-/

namespace Arith64.Json

/-! ## Documents that are read -/

section Separated

variable {m : Mark} {ps qs : List Piece}

theorem separated_nil : Separated [] := List.isChain_nil

theorem Separated.append_mark (hps : Separated ps) (hqs : Separated qs) :
    Separated (ps ++ .mark m :: qs) := by
  refine List.IsChain.append hps ?_ ?_
  · exact List.isChain_cons.mpr ⟨(by rintro q - ⟨n, hn⟩; cases hn), hqs⟩
  · intro p _ q hq _
    cases hq
    exact ⟨m, rfl⟩

theorem Separated.member {key : String} (hps : Separated ps) :
    Separated (.text key :: .mark .colon :: ps) :=
  Separated.append_mark (List.isChain_singleton _) hps

end Separated

mutual

theorem Document.separated_pieces : (d : Document) → Separated d.pieces
  | .null | .boolean _ | .number _ | .text _ => List.isChain_singleton _
  | .list items => by
    have hitems := separated_itemPieces items
    have hend := hitems.append_mark (m := .closeBracket) List.isChain_nil
    exact separated_nil.append_mark hend
  | .object members => by
    have hmembers := separated_memberPieces members
    have hend := hmembers.append_mark (m := .closeBrace) List.isChain_nil
    exact separated_nil.append_mark hend

theorem separated_itemPieces : (items : List Document) → Separated (itemPieces items)
  | [] => List.isChain_nil
  | [d] => d.separated_pieces
  | d :: e :: items => d.separated_pieces.append_mark (separated_itemPieces (e :: items))

theorem separated_memberPieces :
    (members : List (String × Document)) → Separated (memberPieces members)
  | [] => List.isChain_nil
  | [(_, d)] => d.separated_pieces.member
  | (_, d) :: member :: members =>
    d.separated_pieces.member.append_mark (separated_memberPieces (member :: members))

end

/-- Either there is no value and some piece cannot be part of settings, or the value is read from
the tokens of the pieces in front of any others. -/
def ReadsAs {α : Type} (read : Nat → List Token → Option (α × List Token)) (value? : Option α)
    (ps : List Piece) : Prop :=
  (value? = none ∧ pieceTokens? ps = none) ∨
    ∃ v tokens, value? = some v ∧ pieceTokens? ps = some tokens ∧
      ∀ budget rest, 2 * tokens.length ≤ budget → read budget (tokens ++ rest) = some (v, rest)

section ReadsAs

variable {α β γ : Type} {first : Nat → List Token → Option (α × List Token)}
  {second : Nat → List Token → Option (β × List Token)}
  {whole : Nat → List Token → Option (γ × List Token)}
  {a? : Option α} {b? : Option β} {front ps qs back : List Piece} {lead tail : List Token}

theorem ReadsAs.map (f : α → γ) (ha : ReadsAs first a? ps) (hfront : pieceTokens? front = some lead)
    (hback : pieceTokens? back = some tail) (hne : lead ++ tail ≠ [])
    (hstep : ∀ budget tokens a rest, first budget tokens = some (a, tail ++ rest) →
      whole (budget + 1) (lead ++ tokens) = some (f a, rest)) :
    ReadsAs whole (a?.map f) (front ++ ps ++ back) := by
  simp only [ReadsAs, pieceTokens?_append, hfront, hback]
  obtain ⟨rfl, hps⟩ | ⟨a, tokens, rfl, hps, hread⟩ := ha
  · exact .inl ⟨rfl, by rw [hps]; rfl⟩
  · refine .inr ⟨f a, lead ++ tokens ++ tail, rfl, by rw [hps]; rfl, ?_⟩
    intro budget rest hbudget
    have hlength := List.length_pos_iff.mpr hne
    simp only [List.length_append] at hbudget hlength
    obtain ⟨budget, rfl⟩ := Nat.exists_eq_add_of_le' (show 1 ≤ budget by omega)
    rw [List.append_assoc, List.append_assoc]
    exact hstep budget _ a rest (hread budget _ (by omega))

theorem ReadsAs.map₂ (f : α → β → γ) (ha : ReadsAs first a? ps) (hb : ReadsAs second b? qs)
    (hfront : pieceTokens? front = some lead)
    (hstep : ∀ budget tokens a rest b rest', first budget tokens = some (a, .comma :: rest) →
      second budget rest = some (b, rest') →
        whole (budget + 1) (lead ++ tokens) = some (f a b, rest')) :
    ReadsAs whole (a?.bind fun a => b?.map (f a)) (front ++ ps ++ .mark .comma :: qs) := by
  simp only [ReadsAs, pieceTokens?_append, pieceTokens?, hfront]
  obtain ⟨rfl, hps⟩ | ⟨a, tokens, rfl, hps, hread⟩ := ha
  · exact .inl ⟨rfl, by rw [hps]; rfl⟩
  obtain ⟨rfl, hqs⟩ | ⟨b, more, rfl, hqs, hmore⟩ := hb
  · exact .inl ⟨rfl, by rw [hps, hqs]; rfl⟩
  · refine .inr ⟨f a b, lead ++ tokens ++ .comma :: more, rfl, by rw [hps, hqs]; rfl, ?_⟩
    intro budget rest hbudget
    simp only [List.length_append, List.length_cons] at hbudget
    obtain ⟨budget, rfl⟩ := Nat.exists_eq_add_of_le' (show 1 ≤ budget by omega)
    rw [List.append_assoc, List.append_assoc]
    exact hstep budget _ a _ b rest (hread budget _ (by omega)) (hmore budget rest (by omega))

theorem readsAs_tokens {v : Json} (tokens : List Token) (hps : pieceTokens? ps = some tokens)
    (hne : tokens ≠ [])
    (h : ∀ budget rest, readValue (budget + 1) (tokens ++ rest) = some (v, rest)) :
    ReadsAs readValue (some v) ps := by
  refine .inr ⟨v, tokens, rfl, hps, ?_⟩
  intro budget rest hbudget
  have hlength := List.length_pos_iff.mpr hne
  obtain ⟨budget, rfl⟩ := Nat.exists_eq_add_of_le' (show 1 ≤ budget by omega)
  exact h budget rest

end ReadsAs

section Steps

variable {budget : Nat} {tokens rest rest' : List Token} {v : Json}

theorem readItems_last (h : readValue budget tokens = some (v, .closeBracket :: rest)) :
    readItems (budget + 1) tokens = some ([v], rest) := by
  rw [readItems, h]
  rfl

theorem readItems_comma {items : List Json}
    (h : readValue budget tokens = some (v, .comma :: rest))
    (hitems : readItems budget rest = some (items, rest')) :
    readItems (budget + 1) tokens = some (v :: items, rest') := by
  rw [readItems, h]
  simp [hitems]

theorem readMembers_last {key : String}
    (h : readValue budget tokens = some (v, .closeBrace :: rest)) :
    readMembers (budget + 1) (.text key :: .colon :: tokens) = some ([(key, v)], rest) := by
  rw [readMembers]
  simp [h]

theorem readMembers_comma {key : String} {members : List (String × Json)}
    (h : readValue budget tokens = some (v, .comma :: rest))
    (hmembers : readMembers budget rest = some (members, rest')) :
    readMembers (budget + 1) (.text key :: .colon :: tokens) =
      some ((key, v) :: members, rest') := by
  rw [readMembers]
  simp [h, hmembers]

theorem readValue_list {items : List Json} (h : readItems budget tokens = some (items, rest)) :
    readValue (budget + 1) (.openBracket :: tokens) = some (.list items, rest) := by
  have hne : ∀ more, tokens ≠ .closeBracket :: more := by
    rintro more rfl
    obtain _ | _ | budget := budget <;> simp [readItems, readValue] at h
  rw [readValue]
  · simp [h]
  · exact hne

theorem readValue_object {members : List (String × Json)}
    (h : readMembers budget tokens = some (members, rest)) :
    readValue (budget + 1) (.openBrace :: tokens) = some (.object members, rest) := by
  have hne : ∀ more, tokens ≠ .closeBrace :: more := by
    rintro more rfl
    obtain _ | budget := budget <;> simp [readMembers] at h
  rw [readValue]
  · simp [h]
  · exact hne

end Steps

mutual

theorem Document.readsAs : (d : Document) → ReadsAs readValue d.setting? d.pieces
  | .null => readsAs_tokens [.null] rfl (by simp) fun _ _ => rfl
  | .boolean _ => .inl ⟨rfl, rfl⟩
  | .number n => by
    rw [Document.setting?, Document.pieces]
    cases h : n.natural? with
    | none => exact .inl ⟨rfl, by rw [pieceTokens?, Piece.token?, h]; rfl⟩
    | some m =>
      have htokens : pieceTokens? [.number n] = some [.natural m] := by
        rw [pieceTokens?, Piece.token?, h]
        rfl
      exact readsAs_tokens _ htokens (by simp) fun _ _ => rfl
  | .text value => readsAs_tokens [.text value] rfl (by simp) fun _ _ => rfl
  | .list [] => readsAs_tokens [.openBracket, .closeBracket] rfl (by simp) fun _ _ => rfl
  | .list (d :: items) => by
    have hitems := readsAs_itemPieces (d :: items) (List.cons_ne_nil d items)
    have hlist : ReadsAs readValue _ ([.mark .openBracket] ++ _ ++ []) :=
      hitems.map .list rfl rfl (by simp) fun _ _ _ _ => readValue_list
    rwa [List.append_nil, List.singleton_append] at hlist
  | .object [] => readsAs_tokens [.openBrace, .closeBrace] rfl (by simp) fun _ _ => rfl
  | .object (member :: members) => by
    have hmembers := readsAs_memberPieces (member :: members) (List.cons_ne_nil member members)
    have hobject : ReadsAs readValue _ ([.mark .openBrace] ++ _ ++ []) :=
      hmembers.map .object rfl rfl (by simp) fun _ _ _ _ => readValue_object
    rwa [List.append_nil, List.singleton_append] at hobject

theorem readsAs_itemPieces : (items : List Document) → items ≠ [] →
    ReadsAs readItems (settings? items) (itemPieces items ++ [.mark .closeBracket])
  | [], h => absurd rfl h
  | [d], _ => by
    have hitem : ReadsAs readItems _ ([] ++ d.pieces ++ [.mark .closeBracket]) :=
      d.readsAs.map (fun v => [v]) rfl rfl (by simp) fun _ _ _ _ => readItems_last
    have hsettings : settings? [d] = d.setting?.map fun v => [v] := by
      cases h : d.setting? <;> simp [settings?, h]
    rwa [hsettings]
  | d :: e :: items, _ => by
    have hitems := readsAs_itemPieces (e :: items) (List.cons_ne_nil e items)
    have hall : ReadsAs readItems _ ([] ++ d.pieces ++ .mark .comma :: _) :=
      d.readsAs.map₂ List.cons hitems rfl fun _ _ _ _ _ _ => readItems_comma
    have hpieces : itemPieces (d :: e :: items) ++ [.mark .closeBracket] =
        [] ++ d.pieces ++ .mark .comma :: (itemPieces (e :: items) ++ [.mark .closeBracket]) := by
      simp [itemPieces]
    rw [hpieces]
    exact hall

theorem readsAs_memberPieces : (members : List (String × Document)) → members ≠ [] →
    ReadsAs readMembers (memberSettings? members) (memberPieces members ++ [.mark .closeBrace])
  | [], h => absurd rfl h
  | [(key, d)], _ => by
    have hmember : ReadsAs readMembers _
        ([.text key, .mark .colon] ++ d.pieces ++ [.mark .closeBrace]) :=
      d.readsAs.map (fun v => [(key, v)]) rfl rfl (by simp) fun _ _ _ _ => readMembers_last
    have hsettings : memberSettings? [(key, d)] = d.setting?.map fun v => [(key, v)] := by
      cases h : d.setting? <;> simp [memberSettings?, h]
    rwa [hsettings]
  | (key, d) :: member :: members, _ => by
    have hmembers := readsAs_memberPieces (member :: members) (List.cons_ne_nil member members)
    have hall : ReadsAs readMembers _
        ([.text key, .mark .colon] ++ d.pieces ++ .mark .comma :: _) :=
      d.readsAs.map₂ (fun v => ((key, v) :: ·)) hmembers rfl fun _ _ _ _ _ _ => readMembers_comma
    have hpieces : memberPieces ((key, d) :: member :: members) ++ [.mark .closeBrace] =
        [.text key, .mark .colon] ++ d.pieces ++ .mark .comma ::
          (memberPieces (member :: members) ++ [.mark .closeBrace]) := by
      simp [memberPieces]
    rw [hpieces]
    exact hall

end

theorem parse?_of_writes {d : Document} {text : String} (h : d.Writes text) :
    parse? text = d.setting? := by
  have htokens : tokens? text = pieceTokens? d.pieces := by
    rw [tokens?, tokensFrom_written d.separated_pieces h]
    simp
  rw [parse?, htokens]
  obtain ⟨hv, hps⟩ | ⟨v, tokens, hv, hps, hread⟩ := d.readsAs
  · rw [hv, hps]
    rfl
  · have hall := hread (2 * tokens.length + 1) [] (by omega)
    rw [List.append_nil] at hall
    rw [hv, hps]
    simp [hall]

end Arith64.Json
