/-
Reading a text piece by piece. `next` takes one piece off the front and says what it gives; it
has nothing to say on a piece that may still go on. The reading of a text that is cut in two
agrees with the reading of the whole when no piece read before the cut would have been read
otherwise with the rest in sight.
-/
import Mathlib.Data.List.Basic

namespace Hummin.Lexer

universe u v

variable {α : Type u} {β : Type v} {next : List α → Option (List β × List α)}

/-- Every piece takes something of the text. -/
def Shrinks (next : List α → Option (List β × List α)) : Prop :=
  ∀ ⦃text out rest⦄, next text = some (out, rest) → rest.length < text.length

def readFrom (next : List α → Option (List β × List α)) : Nat → List α → List β × List α
  | 0, text => ([], text)
  | fuel + 1, text =>
    match next text with
    | none => ([], text)
    | some (out, rest) =>
      let later := readFrom next fuel rest
      (out ++ later.1, later.2)

/-- What the pieces of a text give, and the unfinished end of the text. -/
def read (next : List α → Option (List β × List α)) (text : List α) : List β × List α :=
  readFrom next text.length text

/-- A reading of the text comes to stand before the given end of it. -/
inductive Reaches (next : List α → Option (List β × List α)) : List α → List α → Prop
  | here (text : List α) : Reaches next text text
  | later {text rest left : List α} {out : List β} (hnext : next text = some (out, rest))
      (hrest : Reaches next rest left) : Reaches next text left

theorem next_nil (hshrinks : Shrinks next) : next [] = none := by
  by_contra hnext
  obtain ⟨⟨out, rest⟩, hsome⟩ := Option.ne_none_iff_exists'.mp hnext
  have hlength := hshrinks hsome
  simp at hlength

theorem readFrom_of_none {text : List α} (hnext : next text = none) (fuel : Nat) :
    readFrom next fuel text = ([], text) := by
  cases fuel with
  | zero => rfl
  | succ fuel => simp [readFrom, hnext]

theorem readFrom_eq_readFrom (hshrinks : Shrinks next) {fuel enough : Nat} {text : List α}
    (hfuel : text.length ≤ fuel) (henough : text.length ≤ enough) :
    readFrom next fuel text = readFrom next enough text := by
  induction fuel generalizing text enough with
  | zero =>
    obtain rfl := List.length_eq_zero_iff.mp (Nat.le_zero.mp hfuel)
    rw [readFrom_of_none (next_nil hshrinks), readFrom_of_none (next_nil hshrinks)]
  | succ fuel ih =>
    cases hnext : next text with
    | none => rw [readFrom_of_none hnext, readFrom_of_none hnext]
    | some piece =>
      obtain ⟨out, rest⟩ := piece
      have hlength := hshrinks hnext
      cases enough with
      | zero => omega
      | succ enough =>
        have hrest := @ih enough rest (by omega) (by omega)
        simp only [readFrom, hnext, hrest]

theorem read_of_none {text : List α} (hnext : next text = none) : read next text = ([], text) :=
  readFrom_of_none hnext text.length

section

variable (hshrinks : Shrinks next)

include hshrinks

theorem read_of_some {text rest : List α} {out : List β} (hnext : next text = some (out, rest)) :
    read next text = (out ++ (read next rest).1, (read next rest).2) := by
  have hlength := hshrinks hnext
  rw [read]
  cases hsize : text.length with
  | zero => omega
  | succ size =>
    have hrest : readFrom next size rest = read next rest :=
      readFrom_eq_readFrom hshrinks (by omega) (Nat.le_refl _)
    simp only [readFrom, hnext, hrest]

/-- Induction along the pieces of a text. -/
theorem read_induction {holds : List α → Prop} (hnone : ∀ text, next text = none → holds text)
    (hsome : ∀ text out rest, next text = some (out, rest) → holds rest → holds text)
    (text : List α) : holds text := by
  induction hsize : text.length using Nat.strongRecOn generalizing text with
  | _ size ih =>
    cases hnext : next text with
    | none => exact hnone text hnext
    | some piece =>
      have hlength := hshrinks hnext
      exact hsome text piece.1 piece.2 hnext (ih _ (by omega) piece.2 rfl)

/-- The end that a reading leaves is one that no piece begins. -/
theorem next_left (text : List α) : next (read next text).2 = none := by
  induction text using read_induction hshrinks with
  | hnone text hnext => rwa [read_of_none hnext]
  | hsome text out rest hnext ih => rwa [read_of_some hshrinks hnext]

theorem left_isSuffix (hsuffix : ∀ text out rest, next text = some (out, rest) → rest <:+ text)
    (text : List α) : (read next text).2 <:+ text := by
  induction text using read_induction hshrinks with
  | hnone text hnext =>
    simp [read_of_none hnext]
  | hsome text out rest hnext ih =>
    rw [read_of_some hshrinks hnext]
    exact ih.trans (hsuffix text out rest hnext)

/-- A text cut in two is read as the whole when every piece reached before the cut would have
been read the same with the rest in sight. -/
theorem read_append {text more : List α}
    (hext : ∀ piece out rest, Reaches next text piece → next piece = some (out, rest) →
      next (piece ++ more) = some (out, rest ++ more)) :
    read next (text ++ more) = ((read next text).1 ++ (read next ((read next text).2 ++ more)).1,
      (read next ((read next text).2 ++ more)).2) := by
  induction text using read_induction hshrinks with
  | hnone text hnext => simp [read_of_none hnext]
  | hsome text out rest hnext ih =>
    rw [read_of_some hshrinks (hext text out rest (.here text) hnext), read_of_some hshrinks hnext,
      ih fun piece out' rest' hreaches => hext piece out' rest' (.later hnext hreaches)]
    simp only [List.append_assoc]

theorem Reaches.length_le {text left : List α}
    (hreaches : Reaches next text left) : left.length ≤ text.length := by
  induction hreaches with
  | here text => exact Nat.le_refl _
  | later hnext _ ih => exact Nat.le_trans ih (Nat.le_of_lt (hshrinks hnext))

/-- What is read before a position that a reading reaches does not depend on the text after it,
as long as the pieces before it are read the same. -/
theorem read_of_reaches {text left : List α} (hreaches : Reaches next text left) :
    ∃ before, read next text = (before ++ (read next left).1, (read next left).2) ∧
      ∀ more, (∀ piece out rest, piece ≠ left → Reaches next text piece →
        next piece = some (out, rest) → next (piece ++ more) = some (out, rest ++ more)) →
        read next (text ++ more) =
          (before ++ (read next (left ++ more)).1, (read next (left ++ more)).2) := by
  induction hreaches with
  | here text => exact ⟨[], by simp, fun more _ => by simp⟩
  | @later text rest left out hnext hrest ih =>
    obtain ⟨before, hread, hmore⟩ := ih
    refine ⟨out ++ before, ?_, fun more hext => ?_⟩
    · rw [read_of_some hshrinks hnext, hread]
      simp only [List.append_assoc]
    have htext : text ≠ left := by
      rintro rfl
      exact absurd (hrest.length_le hshrinks) (Nat.not_le.mpr (hshrinks hnext))
    rw [read_of_some hshrinks (hext text out rest htext (.here text) hnext),
      hmore more fun piece out' rest' hne hreaches => hext piece out' rest' hne
        (.later hnext hreaches)]
    simp only [List.append_assoc]

end

end Hummin.Lexer
