import Roce.Lib.Flood
import Roce.Network.Ecmp
import Roce.Network.Uplink

/-! # Multicast forwarding

The output ports that `SendMultiToDevs` picks for a multicast packet, and the copies of a packet on
their way through a network without drops. A copy is the device that receives it. -/

namespace Roce

namespace SwitchNode

/-- The uplink port that is elected among the ports of a group; 0 if there is none. -/
def electUplink (ports : List Nat) (uplink : List Bool) (ch : CustomHeader) (junk seed : UInt32) :
    Nat :=
  (ecmpPick (ports.filter fun port => uplink.getD port false) ch junk seed).getD 0

/-- The ports that the loop of `SendMultiToDevs` does not skip: not the one the packet came from,
and of the uplinks only the elected one, unless the packet came from an uplink. -/
def multiPorts (ports : List Nat) (uplink : List Bool) (ch : CustomHeader) (junk seed : UInt32)
    (inIface : Nat) : List Nat :=
  let fromUplink := uplink.getD inIface false
  let elected := electUplink ports uplink ch junk seed
  ports.filter fun port =>
    port ≠ inIface && !(uplink.getD port false && (fromUplink || elected ≠ port))

end SwitchNode

/-- A network whose groups and uplinks are built. -/
structure Fabric where
  net : Network
  uplink : Nat → List Bool
  groups : GroupState
  ecmpSeed : Nat → UInt32

namespace Fabric

variable (f : Fabric) (ch : CustomHeader) (junk : Dev → UInt32)

/-- The ports to which a switch sends a copy that it received on the device `d`. -/
def sendMultiToDevs (d : Dev) : List Nat :=
  SwitchNode.multiPorts (f.groups.ogroups d.node ch.dip.toNat).keys (f.uplink d.node) ch (junk d)
    (f.ecmpSeed d.node) d.iface

/-- The copies that the reception of a copy leads to: a switch sends it on, a server does not. -/
def copies (d : Dev) : List Dev :=
  if f.net.isSwitchNode d.node then
    (f.sendMultiToDevs ch junk d).filterMap fun port => f.net.getPeerNetDevice ⟨d.node, port⟩
  else []

/-- The server that receives a copy. -/
def receive (d : Dev) : List Nat := if f.net.isSwitchNode d.node then [] else [d.node]

/-- The flooding of a packet that the server `src` sends: the copies in flight are received in any
order. -/
def flood (src : Nat) : Machine (Bag Dev Nat) Dev :=
  Bag.processing (f.copies ch junk) f.receive (f.net.getPeerNetDevice ⟨src, 1⟩).toList

end Fabric
end Roce
