import EventMarkup.Proofs.Peg.Matches

/-!
# Matches with parts covered

`Covers` keeps of a match what it leaves of the text and what it takes, with a character in the
place of every hidden part. A hidden rule that matches puts the character there (`Matches.covers`),
any other rule puts what its pattern does (`Covers.rule`), and what several patterns put is joined
in their order.
-/

namespace EventMarkup.Peg

variable {ρ : Type}

/-- The pattern matches the front of a text up to the rest, and takes `out` once the hidden parts
are covered. -/
def Covers (body : ρ → Pattern ρ) (hidden : ρ → Bool) (cover : Char) (p : Pattern ρ)
    (s out rest : List Char) : Prop :=
  ∃ ts w far, Runs body p s (.matched ts w rest far) ∧ Tree.coveredAll hidden cover ts = out

variable {body : ρ → Pattern ρ} {hidden : ρ → Bool} {cover : Char} {p a b : Pattern ρ}
  {s t out out' rest : List Char}

theorem Covers.one {ok : Char → Bool} {c : Char} (h : ok c = true) (s : List Char) :
    Covers body hidden cover (.one ok) (c :: s) [c] s :=
  ⟨_, _, _, .one h s, rfl⟩

theorem Covers.text (cs rest : List Char) :
    Covers body hidden cover (.text cs) (cs ++ rest) cs rest :=
  ⟨_, _, _, .text (Text.dropFront?_append cs rest), Tree.coveredAll_map_leaf cs⟩

theorem Covers.atEnd : Covers body hidden cover .atEnd [] [] [] := ⟨_, _, _, .atEnd, rfl⟩

theorem Covers.both (ha : Covers body hidden cover a s out t)
    (hb : Covers body hidden cover b t out' rest) :
    Covers body hidden cover (.both a b) s (out ++ out') rest := by
  obtain ⟨ts, _, _, ha, rfl⟩ := ha
  obtain ⟨us, _, _, hb, rfl⟩ := hb
  exact ⟨_, _, _, .both ha hb rfl, Tree.coveredAll_append ts us⟩

theorem Covers.between (opening closing : List Char)
    (h : Covers body hidden cover p s out (closing ++ rest)) :
    Covers body hidden cover (.joined [.text opening, p, .text closing]) (opening ++ s)
      (opening ++ (out ++ closing)) rest :=
  (Covers.text opening s).both (h.both (Covers.text closing rest))

theorem Covers.either (ha : Covers body hidden cover a s out rest) :
    Covers body hidden cover (.either a b) s out rest := by
  obtain ⟨ts, _, _, ha, hout⟩ := ha
  exact ⟨ts, _, _, .first ha, hout⟩

theorem Fails.either_covers (ha : Fails body a s) (hb : Covers body hidden cover b s out rest) :
    Covers body hidden cover (.either a b) s out rest := by
  obtain ⟨_, ha⟩ := ha
  obtain ⟨ts, _, _, hb, hout⟩ := hb
  exact ⟨ts, _, _, .second ha hb rfl, hout⟩

theorem Covers.more (ha : Covers body hidden cover a s out t)
    (hs : Covers body hidden cover (.star a) t out' rest) :
    Covers body hidden cover (.star a) s (out ++ out') rest := by
  obtain ⟨ts, _, _, ha, rfl⟩ := ha
  obtain ⟨us, _, _, hs, rfl⟩ := hs
  exact ⟨_, _, _, .more ha hs rfl, Tree.coveredAll_append ts us⟩

theorem Fails.covers_star (ha : Fails body a s) : Covers body hidden cover (.star a) s [] s := by
  obtain ⟨_, ha⟩ := ha
  exact ⟨_, _, _, .enough ha, rfl⟩

theorem Covers.rule {r : ρ} (hr : hidden r = false)
    (h : Covers body hidden cover (body r) s out rest) :
    Covers body hidden cover (.rule r) s out rest := by
  obtain ⟨ts, _, _, h, rfl⟩ := h
  exact ⟨_, _, _, .rule h rfl, by simp [Tree.coveredAll, Tree.covered, hr]⟩

theorem Matches.covers {r : ρ} (hr : hidden r = true) (h : Matches body (body r) s rest) :
    Covers body hidden cover (.rule r) s [cover] rest := by
  obtain ⟨ts, _, _, h⟩ := h
  exact ⟨_, _, _, .rule h rfl, by simp [Tree.coveredAll, Tree.covered, hr]⟩

/-- A grammar whose steps suffice finds what a rule takes. -/
theorem Grammar.Orderly.coveredAll_of_covers {g : Grammar ρ} (o : g.Orderly) {r : ρ}
    (h : Covers g.body hidden cover (.rule r) s out rest) :
    ∃ ts w far, g.run r s = .matched ts w rest far ∧ Tree.coveredAll hidden cover ts = out := by
  obtain ⟨ts, w, far, h, hout⟩ := h
  exact ⟨ts, w, far, o.run_eq_iff.2 h, hout⟩

end EventMarkup.Peg
