import NginxEsi.Parser

/-!
# What the handlers see

The output handler receives its bytes in pieces whose borders depend on the output buffer.  The
borders carry no meaning, so callbacks are compared as a sequence of events, in which every byte
stands for itself.  Bytes in the output buffer count as delivered: they precede every callback
still to come.
-/

namespace NginxEsi

inductive Event where
  | byte (b : UInt8)
  | startTag (name : Bytes) (attributes : List ESIAttribute)
  | endTag (name : Bytes)
  deriving DecidableEq, Repr

namespace Callback

def events : Callback → List Event
  | .startTag name attributes => [.startTag name attributes]
  | .endTag name => [.endTag name]
  | .output data => data.map .byte

/-- The bytes that the output handler receives. -/
def data : Callback → Bytes
  | .output data => data
  | _ => []

def isTag : Callback → Bool
  | .output _ => false
  | _ => true

theorem data_eq_nil {c : Callback} (h : c.isTag = true) : c.data = [] := by
  cases c <;> first | rfl | cases h

end Callback

/-- The events of a run. -/
def events (callbacks : List Callback) : List Event := callbacks.flatMap Callback.events

/-- The bytes delivered to the output handler. -/
def delivered (callbacks : List Callback) : Bytes := callbacks.flatMap Callback.data

/-- The calls of the two tag handlers. -/
def tagCalls (callbacks : List Callback) : List Callback := callbacks.filter Callback.isTag

theorem events_append (l l' : List Callback) : events (l ++ l') = events l ++ events l' :=
  List.flatMap_append

theorem events_cons (c : Callback) (l : List Callback) : events (c :: l) = c.events ++ events l :=
  List.flatMap_cons

theorem delivered_cons (c : Callback) (l : List Callback) :
    delivered (c :: l) = c.data ++ delivered l :=
  List.flatMap_cons

/-- The tag callback of an event. -/
def Event.tagCall : Event → Option Callback
  | .byte _ => none
  | .startTag name attributes => some (.startTag name attributes)
  | .endTag name => some (.endTag name)

theorem tagCalls_eq_filterMap (l : List Callback) :
    tagCalls l = (events l).filterMap Event.tagCall := by
  induction l with
  | nil => rfl
  | cons c l ih =>
    rw [events_cons, List.filterMap_append, ← ih]
    cases c with
    | startTag name attributes => rfl
    | endTag name => rfl
    | output data =>
      have hnone : (data.map Event.byte).filterMap Event.tagCall = [] := by
        simp [Event.tagCall]
      rw [Callback.events, hnone]
      rfl

theorem byte_injective : Function.Injective Event.byte := fun _ _ => Event.byte.inj

/-- A run whose events are the bytes of `d` has called no tag handler and delivered `d`. -/
theorem events_eq_map_byte {l : List Callback} {d : Bytes} :
    events l = d.map .byte ↔ (∀ c ∈ l, c.isTag = false) ∧ delivered l = d := by
  induction l generalizing d with
  | nil =>
    simp only [events, delivered, List.flatMap_nil, List.not_mem_nil, false_imp_iff, implies_true,
      true_and]
    exact ⟨fun h => (List.map_eq_nil_iff.1 h.symm).symm, fun h => by rw [← h]; rfl⟩
  | cons c l ih =>
    rw [events_cons, delivered_cons, List.forall_mem_cons]
    cases c with
    | startTag name attributes =>
      simp only [Callback.events, Callback.isTag, Bool.true_eq_false, false_and, iff_false]
      cases d <;> simp
    | endTag name =>
      simp only [Callback.events, Callback.isTag, Bool.true_eq_false, false_and, iff_false]
      cases d <;> simp
    | output data =>
      simp only [Callback.events, Callback.isTag, Callback.data, true_and]
      constructor
      · intro h
        obtain ⟨d₁, d₂, rfl, h₁, h₂⟩ := List.append_eq_map_iff.1 h
        obtain rfl := List.map_injective_iff.2 byte_injective h₁
        obtain ⟨htag, rfl⟩ := ih.1 h₂.symm
        exact ⟨htag, rfl⟩
      · rintro ⟨htag, rfl⟩
        rw [List.map_append, ih.2 ⟨htag, rfl⟩]

namespace Output

/-- The events so far, pending bytes included. -/
def events (o : Output) : List Event := NginxEsi.events o.callbacks ++ o.buffer.map .byte

/-- The bytes sent so far, pending ones included. -/
def sent (o : Output) : Bytes := delivered o.callbacks ++ o.buffer

theorem flush_buffer (o : Output) : o.flush.buffer = [] := by
  unfold flush
  split_ifs with h
  · rfl
  · exact List.eq_nil_of_length_eq_zero (Nat.eq_zero_of_not_pos h)

@[simp] theorem flush_events (o : Output) : o.flush.events = o.events := by
  unfold flush
  split_ifs
  · simp [events, NginxEsi.events, Callback.events]
  · rfl

@[simp] theorem flush_sent (o : Output) : o.flush.sent = o.sent := by
  unfold flush
  split_ifs
  · simp [sent, delivered, Callback.data]
  · rfl

@[simp] theorem echoChar_events (o : Output) (b : UInt8) :
    (o.echoChar b).events = o.events ++ [.byte b] := by
  unfold echoChar
  dsimp only
  split_ifs
  · rw [flush_events]
    simp [events]
  · simp [events]

@[simp] theorem echoChar_sent (o : Output) (b : UInt8) : (o.echoChar b).sent = o.sent ++ [b] := by
  unfold echoChar
  dsimp only
  split_ifs
  · rw [flush_sent]
    simp [sent]
  · simp [sent]

@[simp] theorem foldl_echoChar_events (u : Bytes) (o : Output) :
    (u.foldl echoChar o).events = o.events ++ u.map .byte := by
  induction u generalizing o with
  | nil => simp
  | cons b u ih => simp [ih]

@[simp] theorem foldl_echoChar_sent (u : Bytes) (o : Output) :
    (u.foldl echoChar o).sent = o.sent ++ u := by
  induction u generalizing o with
  | nil => simp
  | cons b u ih => simp [ih]

/-- A callback follows the pending bytes. -/
theorem call_flush_events (o : Output) (c : Callback) :
    (o.flush.call c).flush.events = o.events ++ c.events := by
  have h : NginxEsi.events o.flush.callbacks = o.events := by
    rw [← flush_events o, events, flush_buffer, List.map_nil, List.append_nil]
  rw [flush_events, call, events, flush_buffer, NginxEsi.events_append, h]
  simp [NginxEsi.events]

theorem call_sent (o : Output) {c : Callback} (h : c.isTag = true) : (o.call c).sent = o.sent := by
  simp [call, sent, delivered, Callback.data_eq_nil h]

/-- After a flush everything sent has been delivered. -/
theorem delivered_flush (o : Output) : delivered o.flush.callbacks = o.sent := by
  rw [← flush_sent o, sent, flush_buffer, List.append_nil]

theorem events_flush (o : Output) : NginxEsi.events o.flush.callbacks = o.events := by
  rw [← flush_events o, events, flush_buffer, List.map_nil, List.append_nil]

@[simp] theorem flush_tagCalls (o : Output) :
    tagCalls o.flush.callbacks = tagCalls o.callbacks := by
  unfold flush
  split_ifs
  · simp [tagCalls, Callback.isTag]
  · rfl

theorem foldl_echoChar_tagCalls (u : Bytes) (o : Output) :
    tagCalls (u.foldl echoChar o).callbacks = tagCalls o.callbacks := by
  induction u generalizing o with
  | nil => rfl
  | cons b u ih =>
    rw [List.foldl_cons, ih, echoChar]
    dsimp only
    split_ifs
    · exact flush_tagCalls { o with buffer := o.buffer ++ [b] }
    · rfl

/-- The tag callbacks of a handler call between two flushes. -/
theorem call_flush_tagCalls (o : Output) {t : Callback} (h : t.isTag = true) :
    tagCalls (o.call t).flush.callbacks = tagCalls o.callbacks ++ [t] := by
  rw [flush_tagCalls, call, tagCalls, List.filter_append, List.filter_singleton, h, cond_true,
    tagCalls]

end Output

end NginxEsi
