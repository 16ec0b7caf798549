import AegisTunnel.Socks5

/-! # The TCP clients (`src/mode_psk.c`, `src/mode_tun.c`, `src/mode_socks5.c`) -/

namespace AegisTunnel
open Octets

/-- What a client does on a connection to the server up to `tunnel_run`, or none where it closes it: with a target,
`mode_socks5_client`, and without one, the others. -/
def tcpClient (lib : OpenSsl) (b : Backend) (asymPriv peerPub : Word 32) (keepalive : Int64) (target : Option ConnectReq) :
    Hs Tun := do
  let keys ← handshakeClient lib b asymPriv peerPub
  handshakeKeyConfirmClient b keys
  match target with
  | none => pure (Mode.client.tun keys keepalive)
  | some req => do
    sendConnectReq b req keys.encKey
    pure ((Mode.socksClient (buildConnectReq req)).tun keys keepalive)

end AegisTunnel
