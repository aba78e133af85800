import Mathlib.Data.List.TakeWhile
import TreeCodec.Path

/-!
# Texts of paths

Where no key has a point or an opening bracket in it, a segment begins at each of these
characters of a path's text, and nowhere else but at the start.

* `Segment.spelled`: the characters of a segment, the one at which it begins included;
* `Path.flatMap_spelled`: the text of a path is made of them;
* `Path.eq_of_render`: so the text tells the path.
-/

namespace TreeCodec

/-! ## Segments -/

namespace Segment

/-- A segment whose end its text shows: a key is not empty, and has no character at which
a segment begins. -/
def Plain : Segment → Prop
  | .key k => k ≠ "" ∧ '.' ∉ k.toList ∧ '[' ∉ k.toList
  | .index _ => True

/-- The character at which a segment begins. -/
def mark : Segment → Char
  | .key _ => '.'
  | .index _ => '['

/-- The characters of a segment behind the one at which it begins. -/
def body : Segment → List Char
  | .key k => k.toList
  | .index i => (toString i).toList ++ [']']

/-- The characters of a segment. -/
def spelled (s : Segment) : List Char := s.mark :: s.body

/-- Whether a segment may begin at a character. -/
def isMark (c : Char) : Bool := c == '.' || c == '['

theorem isMark_mark (s : Segment) : isMark s.mark = true := by
  cases s <;> rfl

theorem toList_toString (i : Nat) : (toString i).toList = Nat.toDigits 10 i := by
  rw [Nat.toString_eq_repr, Nat.toList_repr]

/-- No segment begins within a plain one. -/
theorem Plain.isMark_body {s : Segment} (plain : s.Plain) : ∀ c ∈ s.body, isMark c = false := by
  intro c hc
  cases s with
  | key k =>
    obtain ⟨-, point, bracket⟩ := plain
    simp only [isMark, Bool.or_eq_false_iff, beq_eq_false_iff_ne]
    exact ⟨fun h => point (h ▸ hc), fun h => bracket (h ▸ hc)⟩
  | index i =>
    rcases List.mem_append.mp hc with digit | close
    · rw [toList_toString] at digit
      have digit := Nat.isDigit_of_mem_toDigits (by decide) (by decide) digit
      simp only [isMark, Bool.or_eq_false_iff, beq_eq_false_iff_ne]
      constructor <;> rintro rfl <;> cases digit
    · rw [List.mem_singleton.mp close]
      rfl

theorem toString_inj {i j : Nat} (h : (toString i).toList = (toString j).toList) : i = j := by
  rw [toList_toString, toList_toString] at h
  simpa using congrArg (fun digits => Nat.ofDigitChars 10 digits 0) h

/-- Segments are told apart by their characters. -/
theorem eq_of_spelled {s t : Segment} (mark : s.mark = t.mark) (body : s.body = t.body) :
    s = t := by
  cases s with
  | key k =>
    cases t with
    | key l => rw [String.toList_inj.mp body]
    | index j => cases mark
  | index i =>
    cases t with
    | key l => cases mark
    | index j => rw [toString_inj (List.append_cancel_right body)]

end Segment

/-! ## Paths -/

namespace Path

variable {p q : Path}

/-- A path of plain segments. -/
def Plain (p : Path) : Prop := ∀ s ∈ p, s.Plain

/-- Behind some text, all segments begin with their mark. -/
theorem toList_foldl {text : String} (h : text ≠ "") (p : Path) :
    (p.foldl Segment.appendTo text).toList = text.toList ++ p.flatMap Segment.spelled := by
  induction p generalizing text with
  | nil => simp
  | cons s p ih =>
    have next : (s.appendTo text).toList = text.toList ++ s.spelled := by
      cases s <;> simp [Segment.appendTo, Segment.spelled, Segment.mark, Segment.body, h]
    have behind : s.appendTo text ≠ "" := by
      intro empty
      rw [empty] at next
      simp [Segment.spelled] at next
    rw [List.foldl_cons, ih behind, next, List.flatMap_cons, List.append_assoc]

/-- The characters of a text with the point in front that a key has elsewhere. -/
def marked : List Char → List Char
  | [] => []
  | c :: cs => if c = '[' then c :: cs else '.' :: c :: cs

/-- The text of a path is that of its segments. -/
theorem flatMap_spelled (plain : p.Plain) : p.flatMap Segment.spelled = marked p.render.toList := by
  cases p with
  | nil => rfl
  | cons s p =>
    have first := plain s List.mem_cons_self
    rw [render, List.foldl_cons, List.flatMap_cons]
    cases s with
    | key k =>
      obtain ⟨some, -, bracket⟩ := first
      have text : Segment.appendTo "" (.key k) = k := by simp [Segment.appendTo]
      rw [text, toList_foldl some]
      rcases spelled : k.toList with _ | ⟨c, cs⟩
      · exact absurd (String.toList_eq_nil_iff.mp spelled) some
      · have other : c ≠ '[' := fun h => bracket (by rw [spelled, h]; exact List.mem_cons_self)
        simp [marked, other, Segment.spelled, Segment.mark, Segment.body, spelled]
    | index i =>
      have text : Segment.appendTo "" (.index i) ≠ "" := by
        intro empty
        have shorter := congrArg String.toList empty
        simp [Segment.appendTo] at shorter
      rw [toList_foldl text]
      simp [marked, Segment.appendTo, Segment.spelled, Segment.mark, Segment.body]

/-- What stands before the next mark is the body of the first segment. -/
theorem takeWhile_spelled {s : Segment} (plain : s.Plain) (p : Path) :
    (s.body ++ p.flatMap Segment.spelled).takeWhile (fun c => !Segment.isMark c) = s.body := by
  have behind : (p.flatMap Segment.spelled).takeWhile (fun c => !Segment.isMark c) = [] := by
    cases p with
    | nil => rfl
    | cons t p => simp [Segment.spelled, t.isMark_mark]
  rw [List.takeWhile_append_of_pos (by simpa using plain.isMark_body), behind, List.append_nil]

/-- Plain segments are read off their characters. -/
theorem eq_of_flatMap_spelled (hp : p.Plain) (hq : q.Plain)
    (h : p.flatMap Segment.spelled = q.flatMap Segment.spelled) : p = q := by
  induction p generalizing q with
  | nil =>
    cases q with
    | nil => rfl
    | cons t q => simp [Segment.spelled] at h
  | cons s p ih =>
    cases q with
    | nil => simp [Segment.spelled] at h
    | cons t q =>
      simp only [List.flatMap_cons, Segment.spelled, List.cons_append, List.cons.injEq] at h
      obtain ⟨mark, rest⟩ := h
      have body := congrArg (List.takeWhile fun c => !Segment.isMark c) rest
      change (s.body ++ p.flatMap Segment.spelled).takeWhile _ =
        (t.body ++ q.flatMap Segment.spelled).takeWhile _ at body
      rw [takeWhile_spelled (hp s List.mem_cons_self),
        takeWhile_spelled (hq t List.mem_cons_self)] at body
      rw [body] at rest
      rw [Segment.eq_of_spelled mark body, ih (fun u hu => hp u (List.mem_cons_of_mem _ hu))
        (fun u hu => hq u (List.mem_cons_of_mem _ hu)) (List.append_cancel_left rest)]

/-- Plain paths are told apart by their texts. -/
theorem eq_of_render (hp : p.Plain) (hq : q.Plain) (h : p.render = q.render) : p = q := by
  refine eq_of_flatMap_spelled hp hq ?_
  rw [flatMap_spelled hp, flatMap_spelled hq, h]

end Path

end TreeCodec
