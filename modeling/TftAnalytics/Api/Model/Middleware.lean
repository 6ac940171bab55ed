import TftAnalytics.Api.Model.SlidingWindow
import TftAnalytics.Common.Keyed
import Mathlib.Data.List.DropRight
/-!
# API — the middleware in front of the routes

`rate_limit_middleware` of `security.py`, with the two sliding windows and
the daily cap. Nothing is awaited before the handler is called, so a
request passes the checks in one step. The readings of the clocks come
with the request.
-/

namespace TftAnalytics

namespace Api

variable {K β : Type}

/-- `_DailyCap`. -/
structure DailyCap where
  cap : ℤ
  day : ℤ
  count : ℤ

namespace DailyCap

/-- `_DailyCap(cap)`. -/
def new (cap : ℤ) : DailyCap := { cap, day := -1, count := 0 }

/-- `if day != self._day`. -/
def reset (c : DailyCap) (day : ℤ) : DailyCap :=
  if day ≠ c.day then { c with day, count := 0 } else c

/-- `allow` on a day of the year. -/
def allow (c : DailyCap) (day : ℤ) : DailyCap × Bool :=
  let c := c.reset day
  if c.cap ≤ c.count then (c, false) else ({ c with count := c.count + 1 }, true)

end DailyCap

/-- The settings from the environment, and the default window of `allow`,
which is 60 seconds. -/
structure Limits (K : Type) where
  ratePerMin : ℤ
  playerRatePerMin : ℤ
  riotDailyCap : ℤ
  window : K

/-- A request: its path, the `x-forwarded-for` header in Latin-1, empty
where it is missing, and the socket's peer; and what `time.monotonic()`
reads in the one limiter and in the other, and `tm_yday` in the cap. -/
structure HttpRequest (K : Type) where
  path : GoString
  forwardedFor : GoString
  host : Option GoString
  now : K
  playerNow : K
  day : ℤ

/-- What `str.strip` removes, in Latin-1. -/
def latinSpace : List UInt8 := [9, 10, 11, 12, 13, 28, 29, 30, 31, 32, 0x85, 0xA0]

/-- `_client_ip`. -/
def clientIp (r : HttpRequest K) : GoString :=
  if r.forwardedFor ≠ [] then
    (((r.forwardedFor.takeWhile (· ≠ 44)).dropWhile (· ∈ latinSpace)).rdropWhile
      (· ∈ latinSpace)).take 64
  else (r.host.getD (ascii "unknown")).take 64

/-- The paths of player lookups. -/
def playerPath : GoString := ascii "/player/"

/-- `_RIOT_PATHS`. -/
def riotPaths : List GoString := [playerPath, ascii "/players/suggest"]

/-- `is_riot`. -/
def isRiot (path : GoString) : Bool := riotPaths.any fun p => p <+: path

/-- The limiters and the cap. -/
structure Gate (K : Type) where
  globalRl : SlidingWindow K
  playerRl : SlidingWindow K
  riotDaily : DailyCap

/-- Which of the two limiters refuses; the response does not say. -/
inductive Guard where
  | ip
  | player
  deriving DecidableEq

/-- What becomes of a request: a limiter refuses it, or raises; the cap
refuses it; or it goes to its handler. -/
inductive Verdict where
  | limited (guard : Guard) (retry : ℤ)
  | raised (guard : Guard)
  | capped
  | forwarded
  deriving DecidableEq

namespace Gate

/-- The limiters and the cap at the start. -/
def new (limits : Limits K) : Gate K :=
  { globalRl := .new, playerRl := .new, riotDaily := .new limits.riotDailyCap }

/-- The keys of the two limiters. -/
def ipKey (r : HttpRequest K) : GoString := ascii "g:" ++ clientIp r

@[inherit_doc ipKey]
def playerKey (r : HttpRequest K) : GoString := ascii "p:" ++ clientIp r

/-- The check of the cap, on the lookups that spend Riot quota. -/
def rateLimitLookup (limits : Limits K) (g : Gate K) (r : HttpRequest K) : Gate K × Verdict :=
  if playerPath <+: r.path ∧ 0 < limits.riotDailyCap then
    let a := g.riotDaily.allow r.day
    ({ g with riotDaily := a.1 }, if a.2 then .forwarded else .capped)
  else (g, .forwarded)

variable [Ring K] [LinearOrder K] [FloorRing K]

/-- The global limiter's `ok, retry`. -/
def checkIp (limits : Limits K) (g : Gate K) (r : HttpRequest K) : Gate K × Option (Bool × ℤ) :=
  if 0 < limits.ratePerMin then
    let a := g.globalRl.allow r.now (ipKey r) limits.ratePerMin limits.window
    ({ g with globalRl := a.1 }, a.2)
  else (g, some (true, 0))

/-- And the other's, on requests that the first allows. -/
def checkPlayer (limits : Limits K) (g : Gate K) (r : HttpRequest K) : Gate K × Option (Bool × ℤ) :=
  if isRiot r.path ∧ 0 < limits.playerRatePerMin then
    let a := g.playerRl.allow r.playerNow (playerKey r) limits.playerRatePerMin limits.window
    ({ g with playerRl := a.1 }, a.2)
  else (g, some (true, 0))

/-- From the second check on. -/
def rateLimitRiot (limits : Limits K) (g : Gate K) (r : HttpRequest K) : Gate K × Verdict :=
  let a := g.checkPlayer limits r
  match a.2 with
  | none => (a.1, .raised .player)
  | some (false, retry) => (a.1, .limited .player retry)
  | some (true, _) => a.1.rateLimitLookup limits r

/-- The checks of one request. -/
def rateLimit (limits : Limits K) (g : Gate K) (r : HttpRequest K) : Gate K × Verdict :=
  let a := g.checkIp limits r
  match a.2 with
  | none => (a.1, .raised .ip)
  | some (false, retry) => (a.1, .limited .ip retry)
  | some (true, _) => a.1.rateLimitRiot limits r

/-- The middleware as a machine, which shows what becomes of a request. -/
def machine (limits : Limits K) : Machine (Gate K) (HttpRequest K) (HttpRequest K × Verdict) where
  next g r := (g.rateLimit limits r).1
  report g r := some (r, (g.rateLimit limits r).2)

/-- The requests of a run, and what becomes of each. -/
def verdicts (limits : Limits K) (g : Gate K) (rs : List (HttpRequest K)) :
    List (HttpRequest K × Verdict) := (machine limits).reports g rs

end Gate

/-- A response: status, headers, under names in lower case, and a body,
which is the `status` and `message` of a refusal or a handler's. -/
structure HttpResponse (β : Type) where
  status : ℕ
  headers : List (GoString × GoString)
  body : (GoString × GoString) ⊕ β

/-- `response.headers.setdefault`. -/
def setdefault (headers : List (GoString × GoString)) (name value : GoString) :
    List (GoString × GoString) :=
  if name ∈ headers.map Prod.fst then headers else headers ++ [(name, value)]

/-- The security headers. -/
def securityHeaders : List (GoString × GoString) :=
  [(ascii "x-content-type-options", ascii "nosniff"), (ascii "x-frame-options", ascii "DENY"),
    (ascii "referrer-policy", ascii "no-referrer"), (ascii "cache-control", ascii "no-store")]

/-- What `rate_limit_middleware` returns on a verdict; none where a limiter
raises. -/
def respond (callNext : HttpRequest K → HttpResponse β) (r : HttpRequest K) :
    Verdict → Option (HttpResponse β)
  | .limited _ retry =>
    some
      { status := 429
        headers := [(ascii "retry-after", ascii (toString retry))]
        body := .inl (ascii "rate_limited",
          ascii "Too many requests. Slow down and retry shortly.") }
  | .raised _ => none
  | .capped =>
    some
      { status := 503
        headers := []
        body := .inl (ascii "unavailable",
          ascii "Daily player-lookup capacity reached. Try again tomorrow.") }
  | .forwarded =>
    some
      { callNext r with
        headers := securityHeaders.foldl (fun headers p => setdefault headers p.1 p.2)
          (callNext r).headers }

end Api

end TftAnalytics
