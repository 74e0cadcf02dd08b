import Arith64.Proofs.Scanning

/-!
# Where tokens stand

Tokens cover bytes one behind the other, and none of them is empty, so no two
tokens of a text start at the same byte. The end of the text is behind them all.
-/

namespace Arith64

/-- Tokens one behind the other, none of them empty, that end at `stop` or before it. -/
structure Placed (tokens : List Token) (stop : Nat) : Prop where
  filled : ∀ t ∈ tokens, t.start < t.stop
  inside : ∀ t ∈ tokens, t.stop ≤ stop
  ordered : tokens.Pairwise fun t u => t.stop ≤ u.start

variable {pos stop : Nat} {done : Array Token} {cs : List Char} {tokens : List Token} {u : Token}

theorem Placed.mono (h : Placed tokens pos) (hstop : pos ≤ stop) : Placed tokens stop :=
  { h with inside := fun t ht => Nat.le_trans (h.inside t ht) hstop }

theorem placed_cons : Placed (u :: tokens) stop ↔
    u.start < u.stop ∧ u.stop ≤ stop ∧ (∀ t ∈ tokens, u.stop ≤ t.start) ∧ Placed tokens stop := by
  constructor
  · intro h
    have hordered := List.pairwise_cons.mp h.ordered
    exact ⟨h.filled u List.mem_cons_self, h.inside u List.mem_cons_self, hordered.1,
      fun t ht => h.filled t (List.mem_cons_of_mem u ht),
      fun t ht => h.inside t (List.mem_cons_of_mem u ht), hordered.2⟩
  · rintro ⟨hfilled, hinside, hbehind, h⟩
    exact ⟨List.forall_mem_cons.mpr ⟨hfilled, h.filled⟩,
      List.forall_mem_cons.mpr ⟨hinside, h.inside⟩, List.pairwise_cons.mpr ⟨hbehind, h.ordered⟩⟩

theorem Placed.push (h : Placed done.toList pos) (hstart : pos ≤ u.start)
    (hfilled : u.start < u.stop) :
    Placed (done.push u).toList u.stop := by
  rw [Array.toList_push]
  refine ⟨?_, ?_, ?_⟩
  · intro t ht
    rcases List.mem_append.mp ht with ht | ht
    · exact h.filled t ht
    · obtain rfl := List.mem_singleton.mp ht
      exact hfilled
  · intro t ht
    rcases List.mem_append.mp ht with ht | ht
    · have hpos := h.inside t ht
      omega
    · obtain rfl := List.mem_singleton.mp ht
      exact Nat.le_refl _
  · rw [List.pairwise_append]
    refine ⟨h.ordered, List.pairwise_singleton _ _, ?_⟩
    intro t ht v hv
    obtain rfl := List.mem_singleton.mp hv
    exact Nat.le_trans (h.inside t ht) hstart

theorem places_of_ofDigits {t : Token} {run : List Char} (h : Token.ofDigits pos run = .ok t) :
    t.start = pos ∧ t.stop = pos + run.length := by
  simp only [Token.ofDigits] at h
  split at h
  · cases h
    exact ⟨rfl, rfl⟩
  · cases h

theorem placed_of_scan {s : TokenStream} (h : scan pos done cs = .ok s)
    (hdone : Placed done.toList pos) : Placed s.tokens s.stop := by
  fun_induction scan pos done cs with
  | case1 pos done =>
    cases h
    exact hdone
  | case2 pos done c cs hblank ih => exact ih h (hdone.mono (Nat.le_succ pos))
  | case3 pos done c cs hblank hdigit token htoken ih =>
    obtain ⟨hstart, hstop⟩ := places_of_ofDigits htoken
    exact ih h (hdone.push (by omega) (by simp [hstart, hstop]))
  | case4 => cases h
  | case5 pos done c cs hblank hdigit hname token ih =>
    exact ih h (hdone.push (Nat.le_refl pos) (by simp [token, Token.ofName]))
  | case6 pos done c cs hblank hdigit hname l hl ih =>
    exact ih h (hdone.push (Nat.le_refl pos) (Nat.lt_succ_self pos))
  | case7 => cases h

theorem placed_of_tokenize {text : String} {s : TokenStream} (h : tokenize text = .ok s) :
    Placed s.tokens s.stop :=
  placed_of_scan h ⟨by simp, by simp, by simp⟩

theorem starts_increase_of_tokenize {text : String} {s : TokenStream} (h : tokenize text = .ok s) :
    s.toList.Pairwise fun t u => t.start < u.start := by
  have hplaced := placed_of_tokenize h
  rw [TokenStream.toList, List.pairwise_append]
  refine ⟨?_, List.pairwise_singleton _ _, ?_⟩
  · refine hplaced.ordered.imp_of_mem ?_
    intro t u ht _ hstop
    exact Nat.lt_of_lt_of_le (hplaced.filled t ht) hstop
  · intro t ht u hu
    obtain rfl := List.mem_singleton.mp hu
    exact Nat.lt_of_lt_of_le (hplaced.filled t ht) (hplaced.inside t ht)

end Arith64
