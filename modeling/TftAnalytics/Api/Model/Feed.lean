import TftAnalytics.Broker.Model.Subscribe
/-!
# API — the anomaly feed

The thread of `_start_anomaly_feed`, on the broker's `Subscribe`: it takes
the messages of one stream after another, and asks for offset 0 again
whenever a stream breaks. Decoding is a parameter, with its three ways to
end.
-/

namespace TftAnalytics

namespace Api

/-- What `json.loads(payload.decode())` does: it returns a value, or
raises a `JSONDecodeError`, or something else, as `decode` does on invalid
UTF-8. -/
inductive Loaded (J : Type) where
  | value (alert : J)
  | jsonDecodeError
  | exception

/-- The `maxlen` of `self.anomalies`. -/
def feedLength : ℕ := 500

/-- An alert in the feed. The code holds the decoded value alone; the
offset, which it drops, tells the alerts apart. -/
structure Held (J : Type) where
  offset : ℤ
  alert : J

/-- The thread: its stream and how many messages it has taken from it, the
messages taken from the streams before, and `self.anomalies`. -/
structure FeedThread (J : Type) where
  stream : Broker.Subscription
  taken : ℕ
  earlier : List Broker.Sent
  anomalies : List (Held J)

/-- What happens: a step at the broker's end of the stream, the next
message at this end, or an error, or the end, of the stream. -/
inductive FeedEvent where
  | broker (ev : Broker.StreamEvent)
  | deliver
  | fail

namespace FeedThread

variable {J : Type} (loads : Bytes → Loaded J)

/-- The thread at its first `subscribe`. -/
def start (p : Broker.Partition) : FeedThread J :=
  { stream := .start p 0, taken := 0, earlier := [], anomalies := [] }

/-- What has been delivered to the thread, over all streams. -/
def delivered (s : FeedThread J) : List Broker.Sent := s.earlier ++ s.stream.sent.take s.taken

/-- The next turn of `while True`, after the `sleep` where there was an
error: `subscribe` from offset 0. -/
def resubscribe (s : FeedThread J) : FeedThread J :=
  { s with stream := .start s.stream.partition 0, taken := 0, earlier := s.delivered }

/-- The body of the `for` on the next message, where there is one. -/
def deliver (s : FeedThread J) : FeedThread J :=
  match s.stream.sent[s.taken]? with
  | none => s
  | some m =>
    match loads m.payload with
    | .value alert =>
      { s with
        taken := s.taken + 1
        anomalies := (⟨m.offset, alert⟩ :: s.anomalies).take feedLength }
    | .jsonDecodeError => { s with taken := s.taken + 1 }
    | .exception => resubscribe { s with taken := s.taken + 1 }

/-- One event. -/
def step (s : FeedThread J) : FeedEvent → FeedThread J
  | .broker ev => { s with stream := s.stream.step ev }
  | .deliver => s.deliver loads
  | .fail => s.resubscribe

/-- A run, from the start of the thread on. -/
def run (p : Broker.Partition) (evs : List FeedEvent) : FeedThread J :=
  evs.foldl (step loads) (start p)

end FeedThread

end Api

end TftAnalytics
