import Mathlib.Data.List.Nodup

namespace Montage.Library

/-- From `a`, `next` leads through `l` to `z`. -/
def Row (next : α → α) (a : α) : List α → α → Prop
  | [], z => next a = z
  | b :: l, z => next a = b ∧ Row next b l z

/-- `a` and `l` are the stations of a cycle of `next`, in its order. -/
structure Ring (next : α → α) (a : α) (l : List α) : Prop where
  nodup : (a :: l).Nodup
  row : Row next a l a

variable {next next' : α → α} {a b z : α} {l m : List α}

theorem Row.append (h : Row next a l b) (h' : Row next b m z) : Row next a (l ++ b :: m) z := by
  induction l generalizing a with
  | nil => exact ⟨h,h'⟩
  | cons c l ih => exact ⟨h.1,ih h.2⟩

theorem Row.split (h : Row next a (l ++ b :: m) z) : Row next b m z := by
  induction l generalizing a with
  | nil => exact h.2
  | cons c l ih => exact ih h.2

theorem Row.congr (h : Row next a l z) (hsame : ∀ x ∈ a :: l, next' x = next x) :
    Row next' a l z := by
  induction l generalizing a with
  | nil => exact (hsame a List.mem_cons_self).trans h
  | cons c l ih =>
    exact ⟨(hsame a List.mem_cons_self).trans h.1,
      ih h.2 fun x hx => hsame x (List.mem_cons_of_mem _ hx)⟩

theorem Ring.next_of (h : Ring next a (l ++ b :: m)) : next b = m.headD a := by
  have hrow := h.row.split
  cases m with
  | nil => exact hrow
  | cons c m => exact hrow.1

theorem Ring.advance (h : Ring next a (b :: l)) : Ring next b (l ++ [a]) where
  nodup := (List.perm_append_singleton a (b :: l)).nodup_iff.mpr h.nodup
  row := h.row.2.append h.row.1

theorem Ring.grow (h : Ring next a l) (hsame : ∀ x ∈ l, next' x = next x) (hlast : next' a = b)
    (hnew : Row next' b m (l.headD a)) (hm : (b :: m).Nodup)
    (hfresh : ∀ x ∈ b :: m, x ∉ a :: l) : Ring next' b (m ++ (l ++ [a])) where
  nodup := by
    have hperm : (b :: (m ++ (l ++ [a]))).Perm ((b :: m) ++ (a :: l)) :=
      (List.perm_append_singleton a l).append_left (b :: m)
    exact hperm.nodup_iff.mpr (List.nodup_append'.mpr ⟨hm,h.nodup,fun x hx hx' => hfresh x hx hx'⟩)
  row := by
    cases l with
    | nil => exact hnew.append hlast
    | cons c l =>
      have hback : Row next' c (l ++ [a]) b := (h.row.2.congr hsame).append hlast
      exact hnew.append hback

end Montage.Library
