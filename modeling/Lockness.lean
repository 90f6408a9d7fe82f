import Lockness.BagConservation
import Lockness.BagNumbers
import Lockness.BagFinality
import Lockness.SlotDisconnect
import Lockness.SlotDelivery
import Lockness.SlotFinality
import Lockness.SlotAgreement
import Lockness.BagSequential
import Lockness.VecBounds
import Lockness.VecProtocol
import Lockness.ClosureDrop
import Lockness.BagDrain
import Lockness.BagChoice
import Lockness.BagProgress
import Lockness.BagClones
import Lockness.SlotBlocking
import Lockness.VecRegrowth
import Lockness.VecLimits
import Lockness.VecUnwind
import Lockness.BagRest
import Lockness.BagAtomic
import Lockness.SlotAtomic
import Lockness.SlotRest
import Lockness.SlotMemory
