/-!
# Reading a stream in chunks

A reader gets the content of a stream in pieces whose sizes it does not choose, until the end of the
stream is reported or reading fails.  What it has then is a prefix of the content, and a loop that
takes the pieces one by one and the items of each piece in order ends where one pass over that
prefix does.

* `Reads n α`: the answers to a sequence of reads into a buffer of `n` items.  None of the pieces is
  empty, since an empty one is how the end is reported.
* `Reads.delivered` and `Reads.Ends`: what the reader has been given, and whether no read failed.
* `Reads.Of content rs`: the answers can be those to reading a stream of this content.  All of the
  content has been given when the end is reported, and a prefix of it when reading fails.
* `Reads.run_eq_foldl`: a loop over the pieces is one pass over what was delivered.  How the stream
  was cut does not matter; whether it ended does.
-/

set_option autoImplicit false

namespace Stream

variable {α σ : Type} {n : Nat}

/-- The answers to a sequence of reads into a buffer of `n` items: pieces, none of them empty, and
then the end or an error. -/
inductive Reads (α : Type) (n : Nat)
  | chunk (buf : List α) (ne : buf ≠ []) (le : buf.length ≤ n) (rest : Reads α n)
  | eof
  | error

namespace Reads

/-- What the reader has been given. -/
def delivered : Reads α n → List α
  | chunk buf _ _ rest => buf ++ rest.delivered
  | eof => []
  | error => []

/-- No read fails. -/
def Ends : Reads α n → Prop
  | chunk _ _ _ rest => rest.Ends
  | eof => True
  | error => False

/-- The answers are those to reading a stream of this content. -/
structure Of (rs : Reads α n) (content : List α) : Prop where
  given : rs.delivered <+: content
  /-- The end is reported when all of it has been given. -/
  all : rs.Ends → rs.delivered = content

/-- A loop over the pieces, which stops at the end and at an error alike. -/
def run (piece : σ → List α → σ) : σ → Reads α n → σ
  | s, chunk buf _ _ rest => run piece (piece s buf) rest
  | s, eof => s
  | s, error => s

/-- **A loop over the pieces is one pass over what was delivered**, if each piece is taken item by
item. -/
theorem run_eq_foldl {piece : σ → List α → σ} {item : σ → α → σ}
    (hpiece : ∀ s buf, piece s buf = buf.foldl item s) (s : σ) (rs : Reads α n) :
    run piece s rs = rs.delivered.foldl item s := by
  induction rs generalizing s with
  | chunk buf _ _ rest ih => rw [run, ih, hpiece, delivered, List.foldl_append]
  | eof => rfl
  | error => rfl

end Reads

end Stream
