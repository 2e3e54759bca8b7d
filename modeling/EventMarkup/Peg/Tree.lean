/-!
# Derivation trees

A match leaves a tree behind: a node for every rule that took part, a leaf for every character.
Nothing is dropped, so the leaves of a match, read from left to right, are the text that it took.
-/

namespace EventMarkup.Peg

/-- What a match consists of: single characters, and rules with what they matched. -/
inductive Tree (ρ : Type) where
  /-- One character of the text. -/
  | leaf (c : Char)
  /-- A rule and what it matched. -/
  | node (r : ρ) (children : List (Tree ρ))

namespace Tree

variable {ρ : Type}

mutual

def yield : Tree ρ → List Char
  | .leaf c => [c]
  | .node _ children => yieldAll children

def yieldAll : List (Tree ρ) → List Char
  | [] => []
  | t :: ts => yield t ++ yieldAll ts

end

mutual

/-- What the outermost nodes that satisfy `wanted` matched, from left to right. -/
def parts (wanted : ρ → Bool) : Tree ρ → List (List Char)
  | .leaf _ => []
  | .node r children => if wanted r then [yieldAll children] else partsAll wanted children

/-- What the outermost nodes that satisfy `wanted` matched, over several trees. -/
def partsAll (wanted : ρ → Bool) : List (Tree ρ) → List (List Char)
  | [] => []
  | t :: ts => parts wanted t ++ partsAll wanted ts

end

mutual

/-- The characters of a tree, with what each outermost node that satisfies `hidden` matched
replaced by the character `cover`. -/
def covered (hidden : ρ → Bool) (cover : Char) : Tree ρ → List Char
  | .leaf c => [c]
  | .node r children => if hidden r then [cover] else coveredAll hidden cover children

def coveredAll (hidden : ρ → Bool) (cover : Char) : List (Tree ρ) → List Char
  | [] => []
  | t :: ts => covered hidden cover t ++ coveredAll hidden cover ts

end

@[simp] theorem yieldAll_append (ts us : List (Tree ρ)) :
    yieldAll (ts ++ us) = yieldAll ts ++ yieldAll us := by
  induction ts with
  | nil => simp [yieldAll]
  | cons t ts ih => simp [yieldAll, ih]

@[simp] theorem yieldAll_map_leaf (cs : List Char) :
    yieldAll (cs.map Tree.leaf : List (Tree ρ)) = cs := by
  induction cs with
  | nil => rfl
  | cons c cs ih => simp [yieldAll, yield, ih]

section Covered

variable {hidden : ρ → Bool} {cover : Char}

@[simp] theorem coveredAll_append (ts us : List (Tree ρ)) :
    coveredAll hidden cover (ts ++ us) = coveredAll hidden cover ts ++ coveredAll hidden cover us := by
  induction ts with
  | nil => simp [coveredAll]
  | cons t ts ih => simp [coveredAll, ih]

@[simp] theorem coveredAll_map_leaf (cs : List Char) :
    coveredAll hidden cover (cs.map Tree.leaf : List (Tree ρ)) = cs := by
  induction cs with
  | nil => rfl
  | cons c cs ih => simp [coveredAll, covered, ih]

end Covered

section Parts

variable {wanted : ρ → Bool} {part : List Char}

mutual

theorem isInfix_of_mem_parts {t : Tree ρ} (h : part ∈ parts wanted t) : part <:+: yield t := by
  cases t with
  | leaf c => cases h
  | node r children =>
    rw [parts] at h
    split at h
    · obtain rfl := List.mem_singleton.1 h
      exact List.infix_refl _
    · exact isInfix_of_mem_partsAll h

theorem isInfix_of_mem_partsAll {ts : List (Tree ρ)} (h : part ∈ partsAll wanted ts) :
    part <:+: yieldAll ts := by
  cases ts with
  | nil => cases h
  | cons t ts =>
    rw [yieldAll]
    rcases List.mem_append.1 h with h | h
    · exact (isInfix_of_mem_parts h).trans (List.prefix_append _ _).isInfix
    · exact (isInfix_of_mem_partsAll h).trans (List.suffix_append _ _).isInfix

end

end Parts

end Tree

end EventMarkup.Peg
