import AegisTunnel.IniConfig

/-! # The routes of the tunnel (`main.c`, `tunnel/tun.c`)

`main` gathers the `AllowedIPs` of the peers in `tun_route`, and `tun_add_routes_multi` adds a route for each
network in it. -/

namespace AegisTunnel

/-! ### Gathering them -/

/-- `while (*aip && rlen < 62) tun_route[rlen++] = *aip++`. -/
def copyAip : List Char → List Char → List Char
  | tunRoute, [] => tunRoute
  | tunRoute, c :: aip => if tunRoute.length < 62 then copyAip (tunRoute ++ [c]) aip else tunRoute

/-- The loop over the peers for the indices from `pi` on, of which there are `rounds` left. -/
def aggregateLoop (cfg : IniConf) : Nat → Nat → List Char → List Char
  | 0, _, tunRoute => tunRoute
  | rounds + 1, pi, tunRoute =>
    match iniconfGetIndexed cfg "Peer".toList pi "AllowedIPs".toList with
    | none => tunRoute
    | some [] => tunRoute
    | some (c :: aip) =>
      let tunRoute := if 0 < pi ∧ tunRoute.length < 62 then tunRoute ++ [','] else tunRoute
      aggregateLoop cfg rounds (pi + 1) (copyAip tunRoute (c :: aip))

/-- `tun_route` after the configuration has been read; the options -T and -R may have set it before. -/
def aggregateRoutes (cfg : IniConf) (tunRoute : List Char) : List Char :=
  let tunRoute := if tunRoute.isEmpty then aggregateLoop cfg maxPeers 0 tunRoute else tunRoute
  if tunRoute.isEmpty then
    match iniconfGet cfg "Peer".toList "AllowedIPs".toList with
    | some v => v.take 63
    | none => tunRoute
  else tunRoute

/-! ### Adding them -/

/-- The separators of `strtok_r`. -/
def isRouteSep (c : Char) : Bool := c = ',' || c = ' ' || c = '\t'

/-- `strtok_r`: the next token, and the text after its separator. -/
def strtokR (sep : Char → Bool) (text : List Char) : Option (List Char × List Char) :=
  let text := text.dropWhile sep
  if text.isEmpty then none else some (text.takeWhile (!sep ·), (text.dropWhile (!sep ·)).tail)

/-- The loop of `tun_add_routes_multi`: the tokens that it adds routes for. Each round takes a character at
    least, so as many rounds as there are characters are enough. -/
def routeLoop : Nat → List Char → List (List Char)
  | 0, _ => []
  | rounds + 1, text =>
    match strtokR isRouteSep text with
    | none => []
    | some (token, rest) =>
      let token := token.dropWhile fun c => c = ' ' || c = '\t'
      if token.isEmpty then routeLoop rounds rest else token :: routeLoop rounds rest

/-- A call of `tun_add_full_tunnel`, or of `tun_add_route` with a network. -/
inductive RouteCall where
  | fullTunnel
  | route (network : List Char)
  deriving DecidableEq

def routeTokens (allowedIps : List Char) : List (List Char) :=
  let buf := allowedIps.take 255
  routeLoop buf.length buf

def tunAddRoutesMulti (allowedIps : List Char) : List RouteCall :=
  (routeTokens allowedIps).map fun token =>
    if token = "0.0.0.0/0".toList ∨ token = "::/0".toList then .fullTunnel else .route token

end AegisTunnel
