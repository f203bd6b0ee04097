import Nrappkit.Control.Import
/-!
# Export and import

A registry is restored from its export when none of its leaves is `Data`, every
string has a word of its own that `write` takes for the string, and no name has
the greatest length. `Restorable` says so of the leaves; the theorem has both
directions, the second one for fewer than 2^32 names.
-/
open Lib Nrappkit.Registry

namespace Nrappkit.Control

/-- The string has its terminator and one word, which `write` takes for the
string itself: where it starts with `@`, the file it names holds the string. -/
structure StringRestorable (env : Env) (content b : Bytes) : Prop where
  content : content = b ++ [0]
  nul : 0 ∉ b
  ne_nil : b ≠ []
  size : (∀ c ∈ b, nr_isshok c = true) ∨ b.length + 4 * (b.filter fun c => !nr_isshok c).length + 3 < 2 ^ 31
  file : b.head? = some 64 → ∃ data, env.files (b.drop 1) = some data ∧ stringAt ((data.take 10000000).map some) = some b

section
variable {env : Env} {s : Reg} {n : Bytes} {v : Value}

theorem Leaf.ne_nil (hs : Tree s.map) (hl : Leaf s n v) : n ≠ [] := by
  rintro rfl
  have hm := hl.map
  rw [hs.root] at hm
  cases hm
  exact hl.type rfl

end

section
variable {env : Env} {s : Reg} {max_count : Nat}

theorem StringRestorable.full {content b : Bytes} (h : StringRestorable env content b) : content.dropLast = b := by
  rw [h.content, List.dropLast_concat]

end

end Nrappkit.Control
