import ArrayLogic.Text.Layout

/-! # Texts made of lines

Lines with a line feed behind each of them are the lines of their text again, up to one carriage
return at the end of a line. The carriage return is blank, so trimming removes it anyway.
-/

namespace ArrayLogic.Text

/-- The text of lines with a line feed behind each of them. -/
def ofLines (ls : List (List Char)) : List Char :=
  ls.flatMap (· ++ ['\n'])

/-- The line without the carriage return at its end. -/
def withoutReturn : List Char → List Char
  | [] => []
  | ['\r'] => []
  | c :: rest => c :: withoutReturn rest

theorem withoutReturn_cons {c : Char} {rest : List Char} (h : c = '\r' → rest ≠ []) :
    withoutReturn (c :: rest) = c :: withoutReturn rest := by
  rw [withoutReturn]
  rintro hc rfl
  exact h hc rfl

/-- At most a carriage return is removed. -/
theorem eq_withoutReturn_or (line : List Char) :
    line = withoutReturn line ∨ line = withoutReturn line ++ ['\r'] := by
  induction line with
  | nil => exact .inl rfl
  | cons c rest ih =>
      by_cases hlast : c = '\r' ∧ rest = []
      · obtain ⟨rfl, rfl⟩ := hlast
        exact .inr rfl
      · rw [withoutReturn_cons fun hc hrest => hlast ⟨hc, hrest⟩]
        exact ih.imp (congrArg (c :: ·)) (congrArg (c :: ·))

/-- What does not depend on a carriage return at the end of a line does not change without it. -/
theorem apply_withoutReturn {α : Type} {f : List Char → α}
    (hf : ∀ line, f (line ++ ['\r']) = f line) (line : List Char) :
    f (withoutReturn line) = f line := by
  rcases eq_withoutReturn_or line with hline | hline
  · rw [← hline]
  · rw [hline, hf, ← hline]

theorem withoutReturn_of_not_mem {line : List Char} (h : '\r' ∉ line) :
    withoutReturn line = line := by
  rcases eq_withoutReturn_or line with hline | hline
  · exact hline.symm
  · exact absurd (hline ▸ List.mem_concat_self) h

theorem lines_cons {c : Char} {rest : List Char} (hfeed : c ≠ '\n')
    (hreturn : c = '\r' → rest.head? ≠ some '\n') :
    lines (c :: rest) = consLine c (lines rest) := by
  rw [lines]
  · exact hfeed
  · rintro later hc rfl
    exact hreturn hc rfl

theorem lines_append {line : List Char} (h : '\n' ∉ line) (rest : List Char) :
    lines (line ++ '\n' :: rest) = withoutReturn line :: lines rest := by
  induction line with
  | nil => rfl
  | cons c line ih =>
      rw [List.mem_cons, not_or] at h
      obtain ⟨hc, hline⟩ := h
      by_cases hlast : c = '\r' ∧ line = []
      · obtain ⟨rfl, rfl⟩ := hlast
        rfl
      · -- A carriage return with more of the line behind it is an ordinary character.
        have hreturn : c = '\r' → (line ++ '\n' :: rest).head? ≠ some '\n' := by
          intro hr
          obtain ⟨d, line, rfl⟩ := List.exists_cons_of_ne_nil fun hnil => hlast ⟨hr, hnil⟩
          have hd : '\n' ≠ d := List.ne_of_not_mem_cons hline
          simpa using hd.symm
        rw [List.cons_append, lines_cons (Ne.symm hc) hreturn, ih hline,
          withoutReturn_cons fun hr hnil => hlast ⟨hr, hnil⟩, consLine]

theorem ofLines_cons (line : List Char) (ls : List (List Char)) :
    ofLines (line :: ls) = line ++ '\n' :: ofLines ls := by
  simp [ofLines]

/-- The lines of a text that begins with whole lines. -/
theorem lines_ofLines_append {ls : List (List Char)} (h : ∀ line ∈ ls, '\n' ∉ line)
    (rest : List Char) : lines (ofLines ls ++ rest) = ls.map withoutReturn ++ lines rest := by
  induction ls with
  | nil => rfl
  | cons line ls ih =>
      obtain ⟨hline, hls⟩ := List.forall_mem_cons.mp h
      rw [ofLines_cons, List.append_assoc, List.cons_append, lines_append hline, ih hls,
        List.map_cons, List.cons_append]

/-- The lines of a text that is made of lines. -/
theorem lines_ofLines {ls : List (List Char)} (h : ∀ line ∈ ls, '\n' ∉ line) :
    lines (ofLines ls) = ls.map withoutReturn := by
  have hlines := lines_ofLines_append h []
  rw [List.append_nil] at hlines
  exact hlines.trans (List.append_nil _)

/-- The text is empty or ends with a line feed. -/
def EndsLine (text : List Char) : Prop :=
  text = [] ∨ text.getLast? = some '\n'

theorem EndsLine.exists_ofLines {text : List Char} (h : EndsLine text) :
    ∃ ls, (∀ line ∈ ls, '\n' ∉ line) ∧ text = ofLines ls := by
  induction text with
  | nil => exact ⟨[], by simp, rfl⟩
  | cons c rest ih =>
      have hends : EndsLine rest := by
        cases rest with
        | nil => exact .inl rfl
        | cons d later => simpa [EndsLine] using h
      obtain ⟨ls, hls, rfl⟩ := ih hends
      by_cases hc : c = '\n'
      · subst hc
        refine ⟨[] :: ls, List.forall_mem_cons.mpr ⟨List.not_mem_nil, hls⟩, ?_⟩
        exact (ofLines_cons [] ls).symm
      · -- The first line grows, and there is one, since the character does not end the text.
        cases ls with
        | nil => simp [EndsLine, ofLines, hc] at h
        | cons line ls =>
            obtain ⟨hline, hothers⟩ := List.forall_mem_cons.mp hls
            have hmem : '\n' ∉ c :: line := by simp [hline, Ne.symm hc]
            refine ⟨(c :: line) :: ls, List.forall_mem_cons.mpr ⟨hmem, hothers⟩, ?_⟩
            rw [ofLines_cons, ofLines_cons, List.cons_append]

theorem count_ofLines {ls : List (List Char)} (h : ∀ line ∈ ls, '\n' ∉ line) :
    (ofLines ls).count '\n' = ls.length := by
  induction ls with
  | nil => rfl
  | cons line ls ih =>
      obtain ⟨hline, hls⟩ := List.forall_mem_cons.mp h
      rw [ofLines_cons, List.count_append, List.count_cons_self, List.count_eq_zero.mpr hline,
        ih hls, List.length_cons, Nat.zero_add]

/-- Behind the end of a line a text goes on with further lines. -/
theorem EndsLine.lines_append {text : List Char} (h : EndsLine text) (rest : List Char) :
    lines (text ++ rest) = lines text ++ lines rest := by
  obtain ⟨ls, hls, rfl⟩ := h.exists_ofLines
  rw [lines_ofLines_append hls, lines_ofLines hls]

theorem EndsLine.length_lines {text : List Char} (h : EndsLine text) :
    (lines text).length = text.count '\n' := by
  obtain ⟨ls, hls, rfl⟩ := h.exists_ofLines
  rw [lines_ofLines hls, List.length_map, count_ofLines hls]

/-! ## Line ends of both kinds -/

/-- The text consists of the lines. A line ends with a line feed, with or without a carriage return
in front, and only the last one may lack its end unless it is empty. -/
inductive Consists : List Char → List (List Char) → Prop
  | nil : Consists [] []
  | last {line : List Char} (hne : line ≠ []) (hline : '\n' ∉ line) : Consists line [line]
  | feed {line text : List Char} {ls : List (List Char)} (hline : '\n' ∉ line)
      (rest : Consists text ls) : Consists (line ++ '\n' :: text) (line :: ls)
  | returnFeed {line text : List Char} {ls : List (List Char)} (hline : '\n' ∉ line)
      (rest : Consists text ls) : Consists (line ++ '\r' :: '\n' :: text) (line :: ls)

theorem lines_of_not_mem {line : List Char} (hne : line ≠ []) (h : '\n' ∉ line) :
    lines line = [line] := by
  induction line with
  | nil => exact absurd rfl hne
  | cons c rest ih =>
      rw [List.mem_cons, not_or] at h
      obtain ⟨hc, hrest⟩ := h
      have hreturn : c = '\r' → rest.head? ≠ some '\n' :=
        fun _ hhead => hrest (List.mem_of_head? hhead)
      rw [lines_cons (Ne.symm hc) hreturn]
      cases rest with
      | nil => rfl
      | cons d later => rw [ih (List.cons_ne_nil _ _) hrest, consLine]

namespace Consists

variable {text : List Char} {ls : List (List Char)}

theorem not_mem (h : Consists text ls) : ∀ line ∈ ls, '\n' ∉ line := by
  induction h with
  | nil => simp
  | last _ hline => simpa using hline
  | feed hline _ ih => exact List.forall_mem_cons.mpr ⟨hline, ih⟩
  | returnFeed hline _ ih => exact List.forall_mem_cons.mpr ⟨hline, ih⟩

/-- A character that is no line feed belongs to the first line. -/
theorem consLine {c : Char} (hc : c ≠ '\n') (h : Consists text ls) :
    Consists (c :: text) (Text.consLine c ls) := by
  have hmem {line : List Char} (hline : '\n' ∉ line) : '\n' ∉ c :: line :=
    List.not_mem_cons_of_ne_of_not_mem hc.symm hline
  cases h with
  | nil => exact .last (List.cons_ne_nil _ _) (hmem List.not_mem_nil)
  | last _ hline => exact .last (List.cons_ne_nil _ _) (hmem hline)
  | feed hline rest => exact .feed (hmem hline) rest
  | returnFeed hline rest => exact .returnFeed (hmem hline) rest

/-- A text consists of the lines it is cut into. -/
theorem of_lines (text : List Char) : Consists text (lines text) := by
  induction text using lines.induct with
  | case1 => exact .nil
  | case2 rest ih => exact .feed List.not_mem_nil ih
  | case3 rest ih => exact .returnFeed List.not_mem_nil ih
  | case4 c rest hfeed hreturn ih =>
      rw [lines]
      · exact ih.consLine hfeed
      · exact hfeed
      · exact hreturn

/-- Whatever does not depend on a carriage return at the end of a line is the same for all lines
that a text may be said to consist of. -/
theorem map_lines {α : Type} {f : List Char → α} (hf : ∀ line, f (line ++ ['\r']) = f line)
    (h : Consists text ls) : (lines text).map f = ls.map f := by
  induction h with
  | nil => rfl
  | last hne hline => rw [lines_of_not_mem hne hline]
  | feed hline _ ih =>
      rw [lines_append hline, List.map_cons, List.map_cons, apply_withoutReturn hf, ih]
  | @returnFeed line text ls hline _ ih =>
      have hmem : '\n' ∉ line ++ ['\r'] := by simpa using hline
      have hsplit : line ++ '\r' :: '\n' :: text = line ++ ['\r'] ++ '\n' :: text := by simp
      rw [hsplit, lines_append hmem, List.map_cons, List.map_cons, apply_withoutReturn hf, hf, ih]

end Consists

theorem trim_concat {c : Char} (hc : isBlank c = true) (cs : List Char) :
    trim (cs ++ [c]) = trim cs := by
  unfold trim
  rw [List.dropWhile_append]
  split
  next hempty =>
    rw [List.isEmpty_iff.mp hempty, List.dropWhile_cons_of_pos hc]
    rfl
  next => rw [List.reverse_append, List.reverse_singleton, List.singleton_append,
      List.dropWhile_cons_of_pos hc]

end ArrayLogic.Text
