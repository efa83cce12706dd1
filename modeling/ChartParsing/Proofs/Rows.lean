/-!
# Places in rows

The bits of a matrix, the weights of a table over the spans and the buckets of pairs
are laid out row by row, with rows of one width. The row of a place is its quotient by
that width, and the position in the row is what is left over. So different positions
have different places, and a place lies before the end of the last row if its row does.
-/

namespace ChartParsing.Rows

variable {width row row' position position' place rows : Nat}

theorem place_div (h : position < width) : (row * width + position) / width = row := by
  have hpos : 0 < width := Nat.zero_lt_of_lt h
  rw [Nat.add_comm, Nat.add_mul_div_right _ _ hpos, Nat.div_eq_of_lt h, Nat.zero_add]

theorem place_mod (h : position < width) : (row * width + position) % width = position := by
  rw [Nat.mul_add_mod_self_right, Nat.mod_eq_of_lt h]

theorem place_eq_iff (h : position < width) :
    row * width + position = place ↔ row = place / width ∧ position = place % width := by
  refine ⟨?_, ?_⟩
  · rintro rfl
    exact ⟨(place_div h).symm, (place_mod h).symm⟩
  · rintro ⟨rfl, rfl⟩
    exact Nat.div_add_mod' place width

theorem place_inj (h : position < width) (h' : position' < width) :
    row * width + position = row' * width + position' ↔ row = row' ∧ position = position' := by
  rw [place_eq_iff h, place_div h', place_mod h']

theorem place_lt_iff (h : position < width) :
    row * width + position < rows * width ↔ row < rows := by
  rw [← Nat.div_lt_iff_lt_mul (Nat.zero_lt_of_lt h), place_div h]

end ChartParsing.Rows
