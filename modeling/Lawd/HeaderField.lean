import Lawd.Library.Grammar
import Lawd.Library.Pieces
import Lawd.Library.Trim
import Lawd.ReadHead

/-!
# Values of header fields

A value may have spaces and tabs in it, so the repetition that captures it goes on
through those behind it, and little is left for the white space that ends a field.
-/
namespace Lawd

open Library Library.Peg

/-- A space or a tab. -/
def blank (b : UInt8) : Bool := b == 0x20 || b == 0x09

/-- `law_hth_get`. -/
def hthGet (list : List Node) (name : List UInt8) : Option (Option (List UInt8)) :=
  pairGet name list

/-- `law_hth_next`: the name and the value, and the rest of the list. -/
def hthNext (list : List Node) : Option (Option ((List UInt8 × List UInt8) × List Node)) :=
  pairNext list

/-- Wherever the field stands, `law_hth_next` and `law_hth_get` give the text
behind its colon without the blanks around it. -/
def GivesTrimmed (nodes : List Node) (name w : List UInt8) : Prop := ∀ more,
  hthNext (nodes ++ more) = some (some ((name, trim blank w), more)) ∧
    hthGet (nodes ++ more) name = some (some (trim blank w))

/-- At most 127 blanks stand in front, and none behind unless there is nothing
else, or the value has exactly 1023 characters. -/
def BlanksFit (w : List UInt8) : Prop :=
  (w.takeWhile blank).length ≤ 127 ∧
    (trim blank w = [] ∨ w.rdropWhile blank = w ∨ (trim blank w).length = 1023)

instance (w : List UInt8) : Decidable (BlanksFit w) :=
  inferInstanceAs (Decidable (_ ∧ (_ ∨ _ ∨ _)))

section Field

variable {name w r : List UInt8} {vs : List Node}

theorem parse_ows (hp : parse Htp.ows w = some (vs, r)) :
    ∃ t, w = t ++ r ∧ vs = [] ∧ t.length ≤ 127 ∧ (∀ b ∈ t, blank b = true) ∧
      (t.length = 127 ∨ ∀ b ∈ r.head?, blank b = false) := by
  have hset : parse Htp.ows = parse (.rep 0 127 (.set blank)) :=
    parse_rep_congr (parse_alt_set (· == ' '.toUInt8) (· == 0x09))
  rw [hset] at hp
  exact parse_rep_set hp

theorem content_of_blank {b : UInt8} (hb : blank b = true) :
    (Htp.vchar b || b == 0x20 || b == 0x09) = true := by
  rw [Bool.or_assoc]
  exact Bool.or_eq_true_iff.mpr (.inr hb)

/-- The text behind the colon is cut in three. -/
theorem parse_behindColon {items : List Node} (hname : ':'.toUInt8 ∉ name)
    (hp : parse Htp.headerField (name ++ ':'.toUInt8 :: w) = some (items, [])) :
    ∃ front value back, items = [.str .fieldName name, .str .fieldValue value] ∧
      Cut blank 127 1023 w front value back := by
  obtain ⟨vs₁, r₁, vs₂, h₁, hows, rfl⟩ := parse_seq.mp hp
  obtain ⟨vs₃, r₃, vs₄, h₃, hvalue, rfl⟩ := parse_seq.mp h₁
  obtain ⟨vs₅, r₅, vs₆, h₅, hows', rfl⟩ := parse_seq.mp h₃
  obtain ⟨vs₇, r₇, vs₈, htoken, hcolon, rfl⟩ := parse_seq.mp h₅
  obtain ⟨rfl, rfl⟩ := parse_sym.mp hcolon
  obtain ⟨t, hsplit, hd⟩ := derives_of_parse htoken
  obtain rfl := eq_of_append_cons hsplit hname (hd.avoids rfl)
  obtain rfl := (List.cons.inj (List.append_cancel_left hsplit)).2
  cases hd
  obtain ⟨value, hsplit', hd⟩ := derives_of_parse hvalue
  cases hd
  obtain ⟨_, hmunch, -⟩ := parse_cap hvalue
  obtain ⟨front, rfl, rfl, hfront, hblank, hmax⟩ := parse_ows hows'
  obtain ⟨u, hu, -, hlen, -, hstop⟩ := parse_rep_set hmunch
  obtain rfl := List.append_cancel_right (hsplit'.symm.trans hu)
  obtain ⟨back, rfl, rfl, -, hback, -⟩ := parse_ows hows
  rw [List.append_nil] at hsplit' hstop
  refine ⟨front, value, back, rfl, congrArg _ hsplit', hblank, hfront, ?_, hlen, ?_, hback⟩
  · rwa [← hsplit']
  · refine hstop.symm.imp_left fun hnext => ?_
    cases back with
    | nil => rfl
    | cons b back =>
      have hb := hnext b rfl
      rw [content_of_blank (hback b List.mem_cons_self)] at hb
      cases hb

/-- A header line that is accepted up to the end of the line. -/
theorem parse_line {nodes : List Node} {rest : List UInt8} (hname : ':'.toUInt8 ∉ name)
    (hp : parse Htp.parseField (name ++ ':'.toUInt8 :: (w ++ 0x0D :: 0x0A :: rest)) =
      some (nodes, 0x0D :: 0x0A :: rest)) :
    ∃ front value back,
      nodes = [.lst .field [.str .fieldName name, .str .fieldValue value]] ∧
      Cut blank 127 1023 w front value back := by
  have htext : name ++ ':'.toUInt8 :: (w ++ 0x0D :: 0x0A :: rest) =
      (name ++ ':'.toUInt8 :: w) ++ 0x0D :: 0x0A :: rest := by simp
  rw [htext, parse_barrier avoids_parseField, Option.map_eq_some_iff] at hp
  obtain ⟨⟨vs, r⟩, hp, hout⟩ := hp
  obtain ⟨rfl, hr⟩ := Prod.mk.inj hout
  obtain rfl := List.append_left_eq_self.mp hr
  obtain ⟨items, hitems, rfl⟩ := parse_cap hp
  obtain ⟨front, value, back, rfl, hcut⟩ := parse_behindColon hname hitems
  exact ⟨front, value, back, rfl, hcut⟩

end Field

/-- For every header line that is accepted, `law_hth_next` and `law_hth_get` give
the text behind the colon without the blanks around it if and only if the blanks
fit. -/
theorem header_value_trimmed_iff {name w rest : List UInt8} {nodes : List Node}
    (hname : ':'.toUInt8 ∉ name)
    (hp : parse Htp.parseField (name ++ ':'.toUInt8 :: (w ++ 0x0D :: 0x0A :: rest)) =
      some (nodes, 0x0D :: 0x0A :: rest)) :
    GivesTrimmed nodes name w ↔ BlanksFit w := by
  obtain ⟨front, value, back, rfl, hcut⟩ := parse_line hname hp
  rw [BlanksFit, ← hcut.eq_trim_iff (by decide)]
  constructor
  · intro h
    have hnext := Option.some.inj (Option.some.inj (h []).1)
    exact (Prod.mk.inj (Prod.mk.inj hnext).1).2
  · intro heq more
    rw [← heq]
    refine ⟨rfl, ?_⟩
    simp [hthGet, pairGet, pairName, pairValue]

/-- `A: b`. -/
theorem header_value_trimmed_plain : ∃ nodes,
    parse Htp.parseField (['A', ':', ' ', 'b', '\r', '\n'].map Char.toUInt8) =
        some (nodes, [0x0D, 0x0A]) ∧
      GivesTrimmed nodes ['A'.toUInt8] ([' ', 'b'].map Char.toUInt8) := by
  have hp : parse Htp.parseField ('A'.toUInt8 :: ':'.toUInt8 ::
      ([' ', 'b'].map Char.toUInt8 ++ 0x0D :: 0x0A :: [])) = some (_, 0x0D :: 0x0A :: []) := rfl
  exact ⟨_, hp, (header_value_trimmed_iff (by decide) hp).mpr (by decide)⟩

/-- `A: b` with a space behind it, which stays in the value. -/
theorem header_value_trailing : ∃ nodes,
    parse Htp.parseField (['A', ':', ' ', 'b', ' ', '\r', '\n'].map Char.toUInt8) =
        some (nodes, [0x0D, 0x0A]) ∧
      hthGet nodes ['A'.toUInt8] = some (some (['b', ' '].map Char.toUInt8)) ∧
      ¬ GivesTrimmed nodes ['A'.toUInt8] ([' ', 'b', ' '].map Char.toUInt8) := by
  refine ⟨_, rfl, rfl, fun h => ?_⟩
  have hget := (h []).2
  revert hget
  decide

end Lawd
