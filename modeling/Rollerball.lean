import Rollerball.Board.Census
import Rollerball.Board.Games
import Rollerball.Board.Kings
import Rollerball.Board.Mirror
import Rollerball.Board.Moves
import Rollerball.Board.Pawns
import Rollerball.Board.Undo
import Rollerball.Engine.Check
import Rollerball.Engine.Correction
import Rollerball.Engine.Descent
import Rollerball.Engine.Interrupt
import Rollerball.Engine.Margin
import Rollerball.Engine.Mates
import Rollerball.Engine.Prompt
import Rollerball.Engine.Reads
import Rollerball.Engine.Residue
import Rollerball.Engine.Sessions
import Rollerball.Server.Builds
import Rollerball.Server.Connections
import Rollerball.Server.Printed
import Rollerball.Server.Replies
import Rollerball.Server.Unchecked
