import Yaos.Pci

set_option autoImplicit false

/-! # What a driver reads from the registers (`libs/libpci`)

The functions are on the registers of the device that the driver has found. `pci_readl` and the others go to
these registers and to no others (`readPciConfig_eq`). -/

namespace Yaos.Pci

/-- `struct pci_bar`, without `_addr_mmio`. `dev` says that `_dev` is not null. -/
structure PciBar where
  dev : Bool
  pos : BitVec 8
  addrLo : BitVec 32
  addrHi : BitVec 32
  addr64 : BitVec 64
  addrSize : BitVec 64
  isMmio : Bool
  is64 : Bool
  isPrefetchable : Bool
deriving DecidableEq

/-- `struct pcicfg_msix` -/
structure Msix where
  ctrl : BitVec 16
  msgnum : BitVec 16
  location : BitVec 8
  tableBar : BitVec 8
  pbaBar : BitVec 8
  tableOffset : BitVec 32
  pbaOffset : BitVec 32
deriving DecidableEq

/-- `struct pcicfg_msi` -/
structure Msi where
  location : BitVec 8
  ctrl : BitVec 16
  msgnum : BitVec 16
  is64Address : Bool
  isVectorMask : Bool
deriving DecidableEq

/-- `struct pci_device` -/
structure PciDevice where
  revisionId : BitVec 8
  headerType : BitVec 8
  baseClassCode : BitVec 8
  subClassCode : BitVec 8
  programmingInterface : BitVec 8
  deviceId : BitVec 16
  vendorId : BitVec 16
  haveMsix : Bool
  msix : Msix
  haveMsi : Bool
  msi : Msi
  bars : Nat → PciBar
  subsystemVid : BitVec 16
  subsystemId : BitVec 16

/-- The structure of the driver and the registers of the device. -/
structure State where
  pci : PciDevice
  conf : Config

/-! ## Capabilities -/

/-- The loop of `find_capability`, with as many capabilities left that it looks at. -/
def findCapabilityLoop (c : Config) (capId : BitVec 8) : Nat → BitVec 8 → BitVec 8
  | 0, _ => 0xff
  | left + 1, off =>
    if off = 0 then 0xff
    else if c.readb off = capId then off
    else findCapabilityLoop c capId left (c.readb (off + 1))

/-- The count goes up to `max_capabilities`, and the function gives up when it is exceeded. -/
def findCapability (c : Config) (capId : BitVec 8) : BitVec 8 :=
  findCapabilityLoop c capId 241 (c.readb 0x34)

end Yaos.Pci
