import B2.Memory.Block
import B2.Parser.StringLiteral

/-!
# Unescaping in place

`process_string_literal` on the memory of the text. The block is the text and nothing
else, and an access outside it has no result. The loop leaves in the block what
`unescapeFrom` makes of the text between the quotes, `end_ptr` behind it.
-/

namespace B2

open Memory (Block)

/-- The `while` loop; `ptr` and `end_ptr` are places of the block. -/
def unescapeInPlace (text : Block Char) (ptr end_ptr : Nat) : Option (Block Char × Nat) :=
  if ptr < end_ptr then do
    if (← text.bytes ptr) = '\\' then do
      -- remove escape character from text
      let text ← text.move ptr (ptr + 1) (end_ptr - ptr - 1)
      unescapeInPlace text (ptr + 1) (end_ptr - 1)
    else unescapeInPlace text (ptr + 1) end_ptr
  else return (text, end_ptr)
termination_by end_ptr - ptr

/-- `strdup(&text[i])` -/
def strdup (text : Block Char) (i : Nat) : Option Text := text.readUntil '\x00' i

/-- `process_string_literal`: the text as it leaves it, and the string that it returns. -/
def processStringLiteralInPlace (text : Block Char) (len : Nat) : Option (Block Char × Text) := do
  let (text, end_ptr) ← unescapeInPlace text 1 (len - 1)
  -- terminate string
  let text ← text.write end_ptr '\x00'
  return (text, ← strdup text 1)

/-- Each backslash removed and what comes after it kept. -/
def unescape : Text → Text
  | [] => []
  | ['\\'] => []
  | '\\' :: c :: t => c :: unescape t
  | c :: t => c :: unescape t

/-! ## The loop -/

section

variable {b b' : Block Char} {ptr end_ptr : Nat}

theorem unescapeInPlace_backslash (h : ptr < end_ptr) (hread : b.bytes ptr = some '\\')
    (hmove : b.move ptr (ptr + 1) (end_ptr - ptr - 1) = some b') :
    unescapeInPlace b ptr end_ptr = unescapeInPlace b' (ptr + 1) (end_ptr - 1) := by
  rw [unescapeInPlace, if_pos h, hread, hmove]
  rfl

theorem unescapeInPlace_other {c : Char} (h : ptr < end_ptr) (hread : b.bytes ptr = some c)
    (hc : c ≠ '\\') : unescapeInPlace b ptr end_ptr = unescapeInPlace b (ptr + 1) end_ptr := by
  rw [unescapeInPlace, if_pos h, hread]
  exact if_neg hc

end

theorem unescapeFrom_backslash {k : Nat} {w : Text} (h : k < w.length) (hback : w[k] = '\\') :
    unescapeFrom k w = unescapeFrom (k + 1) (w.eraseIdx k) := by
  rw [unescapeFrom, dif_pos h, if_pos hback]

theorem unescapeFrom_other {k : Nat} {w : Text} (h : k < w.length) (hback : w[k] ≠ '\\') :
    unescapeFrom k w = unescapeFrom (k + 1) w := by
  rw [unescapeFrom, dif_pos h, if_neg hback]

theorem unescapeFrom_end {k : Nat} {w : Text} (h : ¬k < w.length) : unescapeFrom k w = w := by
  rw [unescapeFrom, dif_neg h]

/-- What is left of a text when the character at a place of it is removed. -/
theorem split_at {k : Nat} {w : Text} (h : k < w.length) :
    w = w.take k ++ w[k] :: w.drop (k + 1) ∧ w.eraseIdx k = w.take k ++ w.drop (k + 1) ∧
      (w.take k).length = k :=
  ⟨by rw [List.getElem_cons_drop, List.take_append_drop], List.eraseIdx_eq_take_drop_succ w k,
    List.length_take_of_le h.le⟩

/-- The block begins with the opening quote and the text, of which `k` characters are done. -/
theorem unescapeInPlace_reads {q : Char} (k : Nat) (w : Text) : ∀ {b : Block Char},
    b.Reads (q :: w) → ∃ b', unescapeInPlace b (k + 1) (w.length + 1) =
      some (b', (unescapeFrom k w).length + 1) ∧ b'.size = b.size ∧
        b'.Reads (q :: unescapeFrom k w) := by
  induction k, w using unescapeFrom.induct with
  | case1 k w h hback ih =>
    intro b hb
    obtain ⟨hw, herase, hk⟩ := split_at h
    rw [hback] at hw
    generalize hu : w.take k = u at *
    generalize hv : w.drop (k + 1) = v at *
    have hlength : w.length = k + v.length + 1 := by
      rw [hw, List.length_append, List.length_cons, hk]
      omega
    have hread : b.bytes (k + 1) = some '\\' := by
      have hsplit : b.Reads ((q :: u) ++ '\\' :: v) := by rwa [List.cons_append, ← hw]
      have := hsplit.bytes_end
      rwa [List.length_cons, hk] at this
    obtain ⟨b₁, hmove, hsize₁, hb₁⟩ : ∃ b₁, b.move (k + 1) (k + 1 + 1) v.length = some b₁ ∧
        b₁.size = b.size ∧ b₁.Reads (q :: (u ++ v)) := by
      have hsplit : b.Reads ((q :: u) ++ ['\\'] ++ v) := by simpa [← hw] using hb
      have := hsplit.exists_move
      rwa [List.length_cons, hk] at this
    obtain ⟨b', hloop, hsize, hb'⟩ := ih (herase ▸ hb₁)
    have hend : (w.eraseIdx k).length + 1 = w.length + 1 - 1 := by
      rw [List.length_eraseIdx_of_lt h]
      omega
    have hn : w.length + 1 - (k + 1) - 1 = v.length := by omega
    rw [unescapeFrom_backslash h hback, unescapeInPlace_backslash (by omega) hread
      (hn.symm ▸ hmove), ← hend]
    exact ⟨b', hloop, hsize.trans hsize₁, hb'⟩
  | case2 k w h hback ih =>
    intro b hb
    have hread : b.bytes (k + 1) = some w[k] := by
      rw [hb _ (by rw [List.length_cons]; omega), List.getElem?_cons_succ,
        List.getElem?_eq_getElem h]
    rw [unescapeFrom_other h hback, unescapeInPlace_other (by omega) hread hback]
    exact ih hb
  | case3 k w h =>
    intro b hb
    rw [unescapeFrom_end h]
    refine ⟨b, ?_, rfl, hb⟩
    rw [unescapeInPlace, if_neg (by omega)]
    rfl

theorem unescapeFrom_length_le (k : Nat) (w : Text) : (unescapeFrom k w).length ≤ w.length := by
  induction k, w using unescapeFrom.induct with
  | case1 k w h hback ih =>
    rw [unescapeFrom_backslash h hback]
    refine ih.trans ?_
    rw [List.length_eraseIdx_of_lt h]
    omega
  | case2 k w h hback ih =>
    rw [unescapeFrom_other h hback]
    exact ih
  | case3 k w h => rw [unescapeFrom_end h]

/-- The function on memory is the function on texts. -/
theorem processStringLiteralInPlace_eq {text : Text} (hlen : 2 ≤ text.length) :
    ∃ b, processStringLiteralInPlace (Block.ofList text) text.length =
      some (b, processStringLiteral text) := by
  obtain ⟨q, x, rfl⟩ : ∃ q x, text = q :: x :=
    List.exists_cons_of_length_pos (by omega)
  rw [List.length_cons] at hlen
  have hne : x ≠ [] := List.length_pos_iff.1 (by omega)
  have hinner : x.dropLast.length + 1 = (q :: x).length - 1 := by
    rw [List.length_dropLast, List.length_cons]
    omega
  have hbefore : (Block.ofList (q :: x)).Reads (q :: x.dropLast) := by
    have hsplit : q :: x = q :: x.dropLast ++ [x.getLast hne] := by
      rw [List.cons_append, List.dropLast_append_getLast]
    have hall : (Block.ofList (q :: x)).Reads (q :: x.dropLast ++ [x.getLast hne]) :=
      hsplit ▸ Block.reads_ofList
    exact hall.of_append
  obtain ⟨b₁, hloop, hsize, hb₁⟩ := unescapeInPlace_reads 0 x.dropLast hbefore
  rw [Nat.zero_add, hinner] at hloop
  have hshorter := unescapeFrom_length_le 0 x.dropLast
  obtain ⟨b₂, hwrite, -⟩ := b₁.exists_write '\x00' (i := (unescapeFrom 0 x.dropLast).length + 1) (by
    show _ < b₁.size
    rw [hsize]
    show _ < (q :: x).length
    omega)
  have hb₂ := hb₁.write_end hwrite
  have hstrdup : strdup b₂ 1 = some (cString (unescapeFrom 0 x.dropLast)) :=
    Block.Reads.readUntil (v := [q]) _ hb₂
  refine ⟨b₂, ?_⟩
  rw [processStringLiteralInPlace, hloop]
  show (b₁.write _ '\x00').bind _ = _
  rw [hwrite]
  show (strdup b₂ 1).bind _ = _
  rw [hstrdup]
  rfl

/-! ## The plain unescape -/

theorem unescapeFrom_eq_unescape (t : Text) : ∀ done : Text,
    unescapeFrom done.length (done ++ t) = done ++ unescape t := by
  have hback : ∀ done t : Text, unescapeFrom done.length (done ++ '\\' :: t) =
      unescapeFrom (done.length + 1) (done ++ t) := by
    intro done t
    rw [unescapeFrom_backslash (by simp) (by simp)]
    simp [List.eraseIdx_append_of_length_le]
  induction t using unescape.induct with
  | case1 =>
    intro done
    rw [List.append_nil, unescapeFrom_end (lt_irrefl _)]
    exact (List.append_nil done).symm
  | case2 =>
    intro done
    rw [hback, List.append_nil, unescapeFrom_end (by omega)]
    exact (List.append_nil done).symm
  | case3 c t ih =>
    intro done
    have := ih (done ++ [c])
    simp only [List.length_append, List.length_singleton, List.append_assoc,
      List.singleton_append] at this
    rw [hback, this, unescape]
  | case4 c t hlast hnext ih =>
    intro done
    have hc : c ≠ '\\' := by
      rintro rfl
      cases t with
      | nil => exact hlast rfl rfl
      | cons d t => exact hnext d t rfl rfl
    have := ih (done ++ [c])
    simp only [List.length_append, List.length_singleton, List.append_assoc,
      List.singleton_append] at this
    rw [unescapeFrom_other (by simp) (by simpa using hc), this, unescape]
    · exact hlast
    · exact hnext

theorem mem_of_mem_unescape {c : Char} {t : Text} (h : c ∈ unescape t) : c ∈ t := by
  induction t using unescape.induct with
  | case1 => exact h
  | case2 => cases h
  | case3 d t ih =>
    rw [unescape] at h
    rcases List.mem_cons.1 h with rfl | h
    · simp
    · simp [ih h]
  | case4 d t hlast hnext ih =>
    rw [unescape] at h
    · rcases List.mem_cons.1 h with rfl | h
      · simp
      · simp [ih h]
    · exact hlast
    · exact hnext

/-- On a text without NUL, in its quotes, the loop stays within the text and gives the plain
unescape of what is between the quotes. -/
theorem processStringLiteralInPlace_unescapes {text : Text} (hlen : 2 ≤ text.length)
    (hnul : '\x00' ∉ text) :
    ∃ b, processStringLiteralInPlace (Block.ofList text) text.length =
      some (b, unescape (text.drop 1).dropLast) := by
  have hinner : '\x00' ∉ unescape (text.drop 1).dropLast := fun h =>
    hnul (List.mem_of_mem_drop (List.mem_of_mem_dropLast (mem_of_mem_unescape h)))
  have hplain : processStringLiteral text = unescape (text.drop 1).dropLast := by
    have hloop := unescapeFrom_eq_unescape (text.drop 1).dropLast []
    rw [List.nil_append, List.nil_append, List.length_nil] at hloop
    rw [processStringLiteral, hloop, cString_eq_self hinner]
  rw [← hplain]
  exact processStringLiteralInPlace_eq hlen

/-- `"a\"b\"`: a backslash before a quote, and one before the closing quote. -/
theorem processStringLiteralInPlace_unescapes_backslashes :
    ∃ b, processStringLiteralInPlace (Block.ofList ['"', 'a', '\\', '"', 'b', '\\', '"']) 7 =
      some (b, ['a', '"', 'b']) :=
  @processStringLiteralInPlace_unescapes ['"', 'a', '\\', '"', 'b', '\\', '"'] (by decide)
    (by decide)

end B2
